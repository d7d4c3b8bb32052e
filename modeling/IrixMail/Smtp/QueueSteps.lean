import IrixMail.Mail.Filing
import IrixMail.Smtp.Parts

/-!
# What the queue's programs do

Every write of a queue record is of one of two kinds: a new record, whose body has
just been put and whose id has just been drawn, or the write-back of a record that
the program has read before. A write-back names the same body, keeps settled
recipients settled, and settles those for which the program has seen a delivery.
Recipients are attempted only when the record that was read has them pending, and
once each. This holds whether or not commands fail.
-/

namespace IrixMail.Smtp
open Library Prog Store Mail Directory List

variable {α : Type}

variable {P : RecipientRef → Prop} {t u : Trace sig}

/-! ## Traces of the queue -/

def recordOfRow : Sigma Val → Option (ℕ × QueuedMessage)
  | ⟨.queue id, m⟩ => some (id, m)
  | _ => none

def recordsIn : Access → List (ℕ × QueuedMessage)
  | ⟨.get (.queue id), some m⟩ => [(id, m)]
  | ⟨.iterate p, rows⟩ => if p.subspace = .queue then rows.filterMap recordOfRow else []
  | _ => []

def recordsRead (t : Trace sig) : List (ℕ × QueuedMessage) := t.flatMap recordsIn

/-- No command has returned two records under one id. -/
def UniqueRows (t : Trace sig) : Prop := ∀ x ∈ t, ((recordsIn x).map Prod.fst).Nodup

theorem recordsRead_mono (h : t ⊆ u) : recordsRead t ⊆ recordsRead u := by
  intro m hm
  obtain ⟨x, hx, hxm⟩ := mem_flatMap.1 hm
  exact mem_flatMap.2 ⟨x, h hx, hxm⟩

theorem UniqueRows.mono (hu : UniqueRows u) (h : t ⊆ u) : UniqueRows t :=
  fun x hx => hu x (h hx)

def Tried (rcpt : RecipientRef) (outcome : DeliveryAttempt) (t : Trace sig) : Prop :=
  ∃ target here, (⟨.attempt rcpt target here, outcome⟩ : Access) ∈ t

def Attempted (rcpt : RecipientRef) (t : Trace sig) : Prop := ∃ outcome, Tried rcpt outcome t

def QueuedMessage.PendingAt (m : QueuedMessage) (j : ℕ) : Prop :=
  ∃ r, m.recipients[j]? = some r ∧ r.status.isPending = true

def QueuedMessage.SettledAt (m : QueuedMessage) (j : ℕ) : Prop :=
  ∃ r, m.recipients[j]? = some r ∧ r.status.isPending = false

/-- The body has just been put, and the id has just been drawn. -/
def Queues (t : Trace sig) (id : ℕ) (m : QueuedMessage) : Prop :=
  ∃ raw next u, t = ⟨.addAndGet queueIds 1, next⟩ :: ⟨.blobPut raw, m.blobHash⟩ :: u ∧
    id = intAsU32 next

/-- The recipients as they are written back: none is added or dropped, and those
that were settled are left alone. -/
structure Advances (before after : List QueueRecipient) : Prop where
  length : after.length = before.length
  settled : ∀ (j : ℕ) (r : QueueRecipient), before[j]? = some r → r.status.isPending = false →
    after[j]? = some r

structure WritesBack (t : Trace sig) (id : ℕ) (read written : QueuedMessage) : Prop where
  body : written.blobHash = read.blobHash
  advances : Advances read.recipients written.recipients
  delivered : UniqueRows t → ∀ j, Tried ⟨id, j⟩ .delivered t → written.SettledAt j

/-- The commands of the queue's programs. -/
def QueueStep (t : Trace sig) : Cmd → Prop
  | .put (.queue id) m =>
    Queues t id m ∨ ∃ read, (id, read) ∈ recordsRead t ∧ WritesBack t id read m
  | .put (.vacationReply _ _) _ => True
  | .delete (.queue _) => True
  | .batch ops => FilingCmd (.batch ops)
  | .blobGet h => ∃ id read, (id, read) ∈ recordsRead t ∧ read.blobHash = h ∧
      read.isComplete = false
  | .attempt rcpt _ _ =>
    (∃ read, (rcpt.queueId, read) ∈ recordsRead t ∧ read.PendingAt rcpt.index) ∧
      (UniqueRows t → ¬ Attempted rcpt t)
  | .addAndGet _ n => n = 1
  | .get _ => True
  | .iterate _ => True
  | .counter _ => True
  | .blobPut _ => True
  | .now => True
  | _ => False

def QueuedMessage.isReport (m : QueuedMessage) : Bool :=
  m.recipients.any fun r =>
    match r.expiry with
    | .at _ => true
    | .attempts _ => false

def Toward (P : RecipientRef → Prop) (R : QueuedMessage → Prop) : Cmd → Prop
  | .attempt rcpt _ _ => P rcpt
  | .put (.queue _) m => R m
  | _ => True

variable {P' : RecipientRef → Prop} {c : Cmd}

theorem Toward.mono {R R' : QueuedMessage → Prop}
    (hP : ∀ rcpt, P rcpt → P' rcpt) (hR : ∀ m, R m → R' m) (c : Cmd) (hc : Toward P R c) :
    Toward P' R' c := by
  cases c with
  | attempt rcpt target here => exact hP rcpt hc
  | put l v =>
    cases l with
    | queue id => exact hR v hc
    | _ => trivial
  | _ => trivial

section Extends
variable {P : RecipientRef → Prop} {R : QueuedMessage → Prop} {rcpt : RecipientRef} {t u : Trace sig}

theorem Tried.of_extends {outcome : DeliveryAttempt} (htu : Extends (Toward P R) t u)
    (hrcpt : ¬ P rcpt) (h : Tried rcpt outcome u) : Tried rcpt outcome t := by
  obtain ⟨target, here, hmem⟩ := h
  exact ⟨target, here, htu.mem_of_not_calm hmem hrcpt⟩

theorem Attempted.of_extends (htu : Extends (Toward P R) t u) (hrcpt : ¬ P rcpt)
    (h : Attempted rcpt u) : Attempted rcpt t := by
  obtain ⟨outcome, hu⟩ := h
  exact ⟨outcome, hu.of_extends htu hrcpt⟩

end Extends

/-- Neither an attempt nor the record of a report. -/
abbrev Inner : Cmd → Prop := Toward (fun _ => False) fun m => m.isReport = false

theorem Attempted.of_inner {rcpt : RecipientRef} {r : c.Res}
    (h : Attempted rcpt (⟨c, r⟩ :: t)) (hc : Inner c) : Attempted rcpt t :=
  h.of_extends (.cons hc r t) not_false

/-- The program obeys, attempts only recipients of one kind, and returns what has `R`. -/
abbrev Steps {α : Type} (P : RecipientRef → Prop) (R : Trace sig → α → Prop) (t : Trace sig)
    (p : Action α) : Prop :=
  Brings QueueStep (Toward P fun _ => True) R t p

abbrev Tries {α : Type} (P : RecipientRef → Prop) (R : Trace sig → α → Prop) (t : Trace sig)
    (p : Action α) : Prop :=
  Brings QueueStep (Toward P fun m => m.isReport = false) R t p

/-- The program obeys, attempts only recipients of one kind, fails only before anything is
reported, and returns what has `R`. -/
abbrev Settling {α : Type} (P : RecipientRef → Prop) (R : Trace sig → α → Prop) (t : Trace sig)
    (p : Action α) : Prop :=
  Heeds QueueStep (Extends (Toward P fun m => m.isReport = false) t)
    (fun u a => Extends (Toward P fun _ => True) t u ∧ R u a) t p

theorem steps_exec {R : Trace sig → α → Prop}
    {f : c.Res → Action α} (hc : QueueStep t c) (hcalm : Toward P (fun _ => True) c)
    (hf : ∀ r, Steps P R (⟨c, r⟩ :: t) (f r)) : Steps P R t (exec c >>= f) :=
  Brings.perform hc hcalm hf

theorem steps_exec_last {R : Trace sig → c.Res → Prop} (hc : QueueStep t c)
    (hcalm : Toward P (fun _ => True) c) (hR : ∀ r, R (⟨c, r⟩ :: t) r) : Steps P R t (exec c) :=
  Brings.performLast hc hcalm hR

/-- The programs that the queue uses: they obey, attempt nothing and report nothing. -/
abbrev Tame {α : Type} (p : Action α) : Prop := Heedful QueueStep Inner p

theorem Tame.tries {p : Action α} (hp : Tame p) (t : Trace sig) :
    Tries P (fun u _ => Extends Inner t u) t p :=
  ((hp t).mono fun _ _ htu _ => htu).weaken (fun _ _ h => h)
    (Toward.mono (fun _ h => h.elim) fun _ h => h)

theorem Tries.steps {R : Trace sig → α → Prop}
    {p : Action α} (hp : Tries P R t p) (h : ∀ rcpt, P rcpt → P' rcpt) : Steps P' R t p :=
  hp.weaken (fun _ _ h => h) (Toward.mono h fun _ _ => trivial)

theorem unreported {m : QueuedMessage → Prop} (h : Extends (Toward P m) t u) :
    Extends (Toward P fun _ => True) t u :=
  h.mono (Toward.mono (fun _ h => h) fun _ _ => trivial)

theorem Settling.since {R : Trace sig → α → Prop} {p : Action α} (hp : Settling P R u p)
    (htu : Extends (Toward P fun m => m.isReport = false) t u) :
    Heeds QueueStep (Extends (Toward P fun m => m.isReport = false) t)
      (fun v a => Extends (Toward P fun _ => True) t v ∧ R v a) u p :=
  Heeds.mono hp (fun _ h => htu.trans h) fun _ _ h => ⟨(unreported htu).trans h.1, h.2⟩

theorem Tries.settling {β : Type} {R : Trace sig → α → Prop} {R' : Trace sig → β → Prop}
    {p : Action α} {f : α → Action β} (hp : Tries P R t p)
    (hf : ∀ u a, Extends (Toward P fun m => m.isReport = false) t u → R u a →
      Settling P R' u (f a)) : Settling P R' t (p >>= f) :=
  Heeds.bind hp fun u a h => (hf u a h.1 h.2).since h.1

theorem Settling.steps {R : Trace sig → α → Prop} {p : Action α} (hp : Settling P R t p) :
    Steps P R t p :=
  Heeds.mono hp (fun _ => unreported) fun _ _ h => h

theorem Tame.steps {p : Action α} (hp : Tame p) (t : Trace sig) :
    Steps P (fun u _ => Extends Inner t u) t p :=
  (hp.tries t).steps fun _ h => h

theorem tame_exec {f : c.Res → Action α} (hc : ∀ t, QueueStep t c) (hcalm : Inner c)
    (hf : ∀ r, Tame (f r)) : Tame (exec c >>= f) :=
  Heedful.perform hc hcalm hf

theorem tame_exec_last (hc : ∀ t, QueueStep t c) (hcalm : Inner c) :
    Tame (exec c) :=
  Heedful.performLast hc hcalm

theorem Tame.caught {p : Action α} (hp : Tame p) : Tame (caught p) := by
  refine hp.attempt.bind fun r => ?_
  split
  · exact .fail _
  · exact .ret _

/-! ## Deliveries -/

theorem tame_account (id : ℕ) : Tame (AccountRegistry.get id) := by
  refine tame_exec (fun _ => trivial) trivial fun account => ?_
  cases account with
  | none => exact .fail _
  | some account => exact .ret _

theorem handed_tame : Handed fun ⦃_⦄ p => Tame p where
  ret := .ret
  bind := .bind
  catches := .caught
  looks {c} hc := by
    refine tame_exec_last (fun _ => ?_) ?_
    · cases c <;> first | exact hc | exact hc.elim
    · cases c <;> trivial
  domain id := by
    refine tame_exec (fun _ => trivial) trivial fun domain => ?_
    cases domain with
    | none => exact .fail _
    | some domain => exact .ret _

theorem queueStep_of_filing (t : Trace sig) (c : Cmd) (h : FilingCmd c) : QueueStep t c := by
  cases h with
  | get | counter | put => trivial
  | draw => rfl
  | batch hwithin => exact .batch hwithin

theorem inner_of_filing (c : Cmd) (h : FilingCmd c) : Inner c := by
  cases h <;> trivial

section Deliveries
variable (svc : Services)

theorem tame_deliver (request : DeliveryRequest) : Tame (deliver svc.toEnv request) :=
  (filing_deliver svc.toEnv request).mono queueStep_of_filing inner_of_filing

/-- If it fails, then before the record is written. -/
theorem heeds_enqueue {R : QueuedMessage → Prop} (raw : Bytes)
    (request : Enqueue) (t : Trace sig) (hR : ∀ hash, R (request.messageOf raw hash)) :
    Heeds QueueStep (Extends (Toward P fun _ => False) t)
      (fun u _ => Extends (Toward P R) t u ∧ ∃ hash next,
        u = ⟨.put (.queue (intAsU32 next)) (request.messageOf raw hash), ()⟩ ::
          ⟨.addAndGet queueIds 1, next⟩ :: ⟨.blobPut raw, hash⟩ :: t) t
      (enqueue raw request) := by
  have hbefore : ∀ {R' : QueuedMessage → Prop} hash next, Extends (Toward P R') t
      (⟨.addAndGet queueIds 1, next⟩ :: ⟨.blobPut raw, hash⟩ :: t) := fun hash next =>
    (Extends.cons (by trivial) hash t).trans (.cons (by trivial) next _)
  refine .perform (by trivial) (.refl t) fun hash => ?_
  have hid : Heeds QueueStep (Extends (Toward P fun _ => False) t)
      (fun u id => ∃ next, u = ⟨.addAndGet queueIds 1, next⟩ :: ⟨.blobPut raw, hash⟩ :: t ∧
        id = intAsU32 next) (⟨.blobPut raw, hash⟩ :: t) allocateId :=
    .perform rfl (.cons (by trivial) hash t) fun next => .ret ⟨next, rfl, rfl⟩
  refine hid.bind fun u id hu => ?_
  obtain ⟨next, rfl, rfl⟩ := hu
  exact .perform (.inl ⟨raw, next, t, rfl, rfl⟩) (hbefore hash next) fun _ =>
    .ret ⟨(hbefore hash next).trans (.cons (hR hash) _ _), hash, next, rfl⟩

theorem tame_enqueue {raw : Bytes} {request : Enqueue}
    (h : ∀ hash, (request.messageOf raw hash).isReport = false) : Tame (enqueue raw request) :=
  .heedful fun t => (heeds_enqueue raw request t h).mono
    (fun _ h => h.mono (Toward.mono (fun _ h => h) fun _ h => h.elim)) fun _ _ h => h

theorem settling_enqueue (raw : Bytes) (request : Enqueue) (t : Trace sig) :
    Settling P (fun u _ => ∃ hash next,
      u = ⟨.put (.queue (intAsU32 next)) (request.messageOf raw hash), ()⟩ ::
        ⟨.addAndGet queueIds 1, next⟩ :: ⟨.blobPut raw, hash⟩ :: t) t (enqueue raw request) :=
  (heeds_enqueue raw request t fun _ => trivial).mono
    (fun _ h => h.mono (Toward.mono (fun _ h => h) fun _ h => h.elim)) fun _ _ h => h

theorem tame_sendVacationReply (accountId : ℕ) (reply : VacationReply) (now : ℕ) :
    Tame (sendVacationReply accountId reply now) := by
  refine (tame_enqueue fun _ => rfl).caught.bind fun queued => ?_
  cases queued with
  | ok queued =>
    refine Heedful.bind (Tame.caught ?_) fun _ => .ret _
    exact tame_exec_last (fun _ => trivial) trivial
  | error err => exact .ret _

theorem tame_respondVacation (account : Account) (recipient mailFrom : String) (raw : Bytes)
    (now : ℕ) : Tame (respondVacation svc account recipient mailFrom raw now) := by
  have hlast : Tame (lastVacationReply account.id mailFrom) :=
    tame_exec_last (fun _ => trivial) trivial
  refine hlast.caught.bind fun last => ?_
  cases last with
  | error err => exact .ret _
  | ok last =>
    dsimp only
    split
    · exact .fail _
    · exact .ret _
    · exact .ret _
    · exact tame_sendVacationReply _ _ _

theorem delivers_tame (raw : Bytes) : Delivers (fun ⦃_⦄ p => Tame p) svc raw where
  toHanded := handed_tame
  account := tame_account
  files := tame_deliver svc
  relays _ _ := tame_enqueue fun _ => rfl
  answers account recipient mailFrom now :=
    tame_respondVacation svc account recipient mailFrom raw now

end Deliveries

/-! ## One recipient -/

section Recipients
variable (out : OutboundDelivery)

variable {r : QueueRecipient} {read : QueuedMessage}

theorem isPending_of_isDue {now : ℕ} (h : r.isDue now = true) :
    r.status.isPending = true := (Bool.and_eq_true_iff.1 h).1

theorem tame_recordOutbound (now : ℕ) : Tame (recordOutbound now) :=
  tame_exec_last (fun _ => rfl) trivial

variable (hosted : Option (List String))

theorem tame_attemptHere (returnPath : String) (raw : Bytes)
    (now : ℕ) (address : String) : Tame (attemptHere out hosted returnPath raw now address) := by
  cases hosted with
  | none => exact .ret _
  | some hosted => exact handed_followRoutes (delivers_tame _ raw) hosted returnPath now 2 _

theorem tries_attemptDelivery {rcpt : RecipientRef} {target : String}
    {here : Option DeliveryAttempt} (hstep : QueueStep t (.attempt rcpt target here)) :
    Tries (· = rcpt)
      (fun u attempt => Tried rcpt .delivered u → Tried rcpt .delivered t ∨ attempt = .delivered) t
      (attemptDelivery rcpt target here) := by
  refine Heeds.call hstep (fun attempt => .ret ⟨.cons (by rfl) attempt t, ?_⟩)
    fun _ => .ret ⟨.refl t, Or.inl⟩
  rintro ⟨target', here', hmem⟩
  rcases mem_cons.1 hmem with heq | hmem
  · refine .inr ?_
    cases heq
    rfl
  · exact .inl ⟨target', here', hmem⟩

theorem tries_attemptRecipient {ref : RecipientRef} (returnPath : String) (raw : Bytes) (now : ℕ)
    (rcpt : QueueRecipient) (hread : (ref.queueId, read) ∈ recordsRead t)
    (hpending : read.PendingAt ref.index) (hnew : UniqueRows t → ¬ Attempted ref t) :
    Tries (· = ref)
      (fun u r => Tried ref .delivered u → Tried ref .delivered t ∨ r.status.isPending = false) t
      (attemptRecipient out ref hosted returnPath raw now rcpt) := by
  refine ((tame_attemptHere out hosted returnPath raw now _).tries t).bind fun u x _ htu => ?_
  have hold : ∀ outcome, Tried ref outcome u → Tried ref outcome t := fun outcome h =>
    h.of_extends htu not_false
  have hstep : QueueStep u (.attempt ref x.1 x.2) := by
    refine ⟨⟨read, recordsRead_mono htu.subset hread, hpending⟩, fun hrows hattempted => ?_⟩
    exact hnew (hrows.mono htu.subset) (hattempted.of_extends htu not_false)
  refine (tries_attemptDelivery hstep).bind fun v attempt _ hattempt => ?_
  have hsettled : Tried ref .delivered v →
      Tried ref .delivered t ∨ (applyAttempt rcpt attempt now).status.isPending = false := by
    intro htried
    rcases hattempt htried with h | rfl
    · exact .inl (hold _ h)
    · exact .inr rfl
  split
  · refine ((tame_recordOutbound now).caught.tries v).bind fun w _ _ hvw => .ret fun htried => ?_
    exact hsettled (htried.of_extends hvw not_false)
  · exact .ret hsettled

structure Treated (id i : ℕ) (t u : Trace sig) (rcpts tried : List QueueRecipient) : Prop where
  advances : Advances rcpts tried
  delivered : ∀ k, Tried ⟨id, i + k⟩ .delivered u → Tried ⟨id, i + k⟩ .delivered t ∨
    ∃ r, tried[k]? = some r ∧ r.status.isPending = false

theorem Advances.nil : Advances [] [] := ⟨rfl, fun _ _ h _ => by simp at h⟩

theorem Advances.cons {r' : QueueRecipient} {before after : List QueueRecipient}
    (hr : r.status.isPending = false → r' = r) (h : Advances before after) :
    Advances (r :: before) (r' :: after) := by
  refine ⟨by simp [h.length], fun j x hx hsettled => ?_⟩
  cases j with
  | zero =>
    obtain rfl : r = x := by simpa using hx
    simp [hr hsettled]
  | succ j => exact h.settled j x (by simpa using hx) hsettled

theorem Advances.map {f : QueueRecipient → QueueRecipient}
    (hf : ∀ r, r.status.isPending = false → f r = r) (rcpts : List QueueRecipient) :
    Advances rcpts (rcpts.map f) := by
  induction rcpts with
  | nil => exact .nil
  | cons r rest ih => exact .cons (hf r) ih

theorem tries_attemptIfDue (ref : RecipientRef) (hosted : Option (List String))
    (returnPath : String) (raw : Bytes) (now : ℕ)
    (rcpt : QueueRecipient) (hread : (ref.queueId, read) ∈ recordsRead t)
    (hrcpt : read.recipients[ref.index]? = some rcpt) (hnew : UniqueRows t → ¬ Attempted ref t) :
    Tries (fun ref' => ref' = ref ∧ read.PendingAt ref.index)
      (fun u r => (rcpt.status.isPending = false → r = rcpt) ∧
        (Tried ref .delivered u → Tried ref .delivered t ∨ r.status.isPending = false)) t
      (attemptIfDue out ref hosted returnPath raw now rcpt) := by
  unfold attemptIfDue
  split
  next hdue =>
    have hpending := isPending_of_isDue hdue
    have hat : read.PendingAt ref.index := ⟨rcpt, hrcpt, hpending⟩
    refine ((tries_attemptRecipient out hosted returnPath raw now rcpt hread hat hnew).mono
      fun u r _ htried => ⟨fun hsettled => ?_, htried⟩).weaken (fun _ _ h => h)
        (Toward.mono (fun _ h => ⟨h, hat⟩) fun _ h => h)
    rw [hpending] at hsettled
    cases hsettled
  next => exact .ret ⟨fun _ => rfl, Or.inl⟩

theorem tries_attemptRecipients {id : ℕ}
    (returnPath : String) (raw : Bytes) (now i : ℕ) (rcpts : List QueueRecipient)
    (hread : (id, read) ∈ recordsRead t) (hrcpts : ∀ k, read.recipients[i + k]? = rcpts[k]?)
    (hnew : UniqueRows t → ∀ j, i ≤ j → ¬ Attempted ⟨id, j⟩ t) :
    Tries (fun ref => ref.queueId = id ∧ i ≤ ref.index ∧ read.PendingAt ref.index)
      (fun u tried => Treated id i t u rcpts tried) t
      (attemptRecipients out id hosted returnPath raw now i rcpts) := by
  induction rcpts generalizing i t with
  | nil => exact .ret ⟨.nil, fun _ h => .inl h⟩
  | cons rcpt rest ih =>
    have hhead := tries_attemptIfDue out ⟨id, i⟩ hosted returnPath raw now rcpt hread
      (by simpa using hrcpts 0) fun hrows => hnew hrows i le_rfl
    refine (hhead.noting.weaken (fun _ _ h => h) (Toward.mono ?_ fun _ h => h)).bind fun u r _ hr => ?_
    · rintro ref ⟨rfl, hat⟩
      exact ⟨rfl, le_rfl, hat⟩
    obtain ⟨htu, hkept, hdelivered⟩ := hr
    have htail := ih (i + 1) (t := u) (recordsRead_mono htu.subset hread)
      (fun k => by simpa [Nat.add_assoc, Nat.add_comm 1 k] using hrcpts (k + 1))
      fun hrows j hj hattempted => hnew (hrows.mono htu.subset) j (by omega)
        (hattempted.of_extends htu (by simp; omega))
    refine (htail.noting.weaken (fun _ _ h => h) (Toward.mono ?_ fun _ h => h)).bind fun v tried _ htried => ?_
    · exact fun ref h => ⟨h.1, by omega, h.2.2⟩
    obtain ⟨huv, htried⟩ := htried
    refine .ret ⟨.cons hkept htried.advances, fun k hk => ?_⟩
    cases k with
    | zero =>
      rcases hdelivered (hk.of_extends huv (by simp)) with h | h
      · exact .inl h
      · exact .inr ⟨r, rfl, h⟩
    | succ k =>
      rw [show i + (k + 1) = i + 1 + k by omega] at hk ⊢
      rcases htried.delivered k hk with h | h
      · exact .inl (h.of_extends htu (by simp; omega))
      · exact .inr h

end Recipients

/-! ## Reports -/

def bodyLastPut : Trace sig → Bytes
  | [] => []
  | ⟨.blobPut raw, _⟩ :: _ => raw
  | _ :: t => bodyLastPut t

def reportsIn : Trace sig → List (Bytes × QueuedMessage)
  | [] => []
  | ⟨.put (.queue _) m, _⟩ :: t =>
    if m.isReport then (bodyLastPut t, m) :: reportsIn t else reportsIn t
  | _ :: t => reportsIn t

theorem reportsIn_cons {c : Cmd}
    (h : Toward P (fun m => m.isReport = false) c) (r : c.Res) (t : Trace sig) :
    reportsIn (⟨c, r⟩ :: t) = reportsIn t := by
  cases c with
  | put l v =>
    cases l with
    | queue id =>
      have hv : v.isReport = false := h
      simp [reportsIn, hv]
    | _ => rfl
  | _ => rfl

theorem reportsIn_of_extends
    (h : Extends (Toward P fun m => m.isReport = false) t u) : reportsIn u = reportsIn t := by
  obtain ⟨v, hv, rfl⟩ := h
  induction v with
  | nil => rfl
  | cons x v ih =>
    rw [cons_append, reportsIn_cons (hv x mem_cons_self)]
    exact ih fun y hy => hv y (mem_cons_of_mem x hy)

/-! ## One message -/

section Messages
variable (out : OutboundDelivery)

theorem Steps.caught {R : Trace sig → α → Prop} {p : Action α} (hp : Steps P R t p) :
    Steps P (fun u r => ∀ a, r = .ok a → R u a) t (caught p) := by
  have hcaught : Steps P (fun u r => ∀ a, r = .ok a → R u a) t p.attempt := by
    refine Brings.attempt hp ?_ ?_
    · rintro u a ha b hb
      cases hb
      exact ha
    · rintro u e a ha
      cases ha
  refine hcaught.bind fun u r _ hr => ?_
  split
  · exact .fail _
  · exact .ret hr

theorem tame_remove (id : ℕ) : Tame (remove id) := tame_exec_last (fun _ => trivial) trivial

variable {id : ℕ} {read message : QueuedMessage} {r : QueueRecipient}

theorem steps_persist (hread : (id, read) ∈ recordsRead t) (hback : WritesBack t id read message) :
    Steps P (fun _ _ => True) t (persist id message) :=
  steps_exec_last (c := .put (.queue id) message) (.inr ⟨read, hread, hback⟩) trivial
    fun _ => trivial

theorem steps_commit (hread : (id, read) ∈ recordsRead t) (hback : WritesBack t id read message) :
    Steps P (fun _ _ => True) t (commit id message) := by
  unfold commit
  split
  · exact ((tame_remove id).steps t).mono fun _ _ _ _ => trivial
  · exact steps_persist hread hback

variable (now : ℕ)

theorem delay_of_settled (due : ℕ) (h : r.status.isPending = false) : r.delay now due = r := by
  simp [QueueRecipient.delay, QueueRecipient.isDue, h]

theorem loseBody_of_settled (h : r.status.isPending = false) :
    r.loseBody = r := by
  simp [QueueRecipient.loseBody, h]

theorem hasten_of_settled (h : r.status.isPending = false) : r.hasten now = r := by
  simp [QueueRecipient.hasten, h]

theorem WritesBack.untried {f : QueueRecipient → QueueRecipient}
    (hf : ∀ r, r.status.isPending = false → f r = r)
    (hnew : UniqueRows t → ∀ j, ¬ Attempted ⟨id, j⟩ t) :
    WritesBack t id read { read with recipients := read.recipients.map f } :=
  ⟨rfl, .map hf _, fun hrows j hj => absurd ⟨_, hj⟩ (hnew hrows j)⟩

theorem tame_listHosted : Tame (listHosted out) := by
  unfold listHosted
  split
  · exact (handed_hostedDomains handed_tame).bind fun _ => .ret _
  · exact .ret _

def treatMessage (id : ℕ) (message : QueuedMessage) (now : ℕ) : Action QueuedMessage :=
  if message.hasDueRecipient now && !out.isAllowed id message.returnPath then
    let due := out.limits.windowEnd now
    pure { message with recipients := message.recipients.map (·.delay now due) }
  else do
    let pendingBefore := message.recipients.map fun r => r.status.isPending
    match ← exec (.blobGet message.blobHash) with
    | none => do
      let message := { message with recipients := message.recipients.map (·.loseBody) }
      raiseBounces out message pendingBefore [] now
      pure message
    | some raw => do
      let hosted ← listHosted out
      let recipients ← attemptRecipients out id hosted message.returnPath raw now 0
        message.recipients
      let message := { message with recipients := recipients }
      raiseBounces out message pendingBefore raw now
      pure message

theorem processMessage_eq (id : ℕ) (message : QueuedMessage) (now : ℕ) :
    processMessage out id message now = treatMessage out id message now >>= commit id := by
  unfold processMessage treatMessage
  split
  · rfl
  · simp only [bind_assoc]
    congr 1
    funext body
    cases body with
    | none => simp only [bind_assoc, pure_bind]
    | some raw => simp only [bind_assoc, pure_bind]

def bouncedBy (before after : QueuedMessage) : List QueueRecipient :=
  newlyBounced after (before.recipients.map fun r => r.status.isPending)

/-- The reports that a pass owes: one, of the recipients that it has bounced, if
there are any and somebody to tell. -/
def Owes (now : ℕ) (before after : QueuedMessage) (reports : List (Bytes × QueuedMessage)) : Prop :=
  if before.returnPath = "" ∨ bouncedBy before after = [] then reports = []
  else ∃ original dsn hash,
    buildDsn out.services.toEnv { after with recipients := bouncedBy before after }
      (out.hostname.getD reportingMta) original now = some dsn ∧
    reports = [(dsn, Enqueue.messageOf
      ⟨now, "", [(before.returnPath, .at (saturatingAdd now defaultMaxAge))], now⟩ dsn hash)]

theorem isBounced_of_mem_bouncedBy {before after : QueuedMessage} {r : QueueRecipient}
    (h : r ∈ bouncedBy before after) : r.status.isBounced = true := by
  obtain ⟨x, hx, rfl⟩ := mem_map.1 h
  exact (Bool.and_eq_true_iff.1 (mem_filter.1 hx).2).2

theorem exists_buildDsn (env : Env) (message : QueuedMessage) (mta : String) (original : Bytes)
    (now : ℕ) (hpath : message.returnPath ≠ "") (hsome : message.recipients ≠ [])
    (hbounced : ∀ r ∈ message.recipients, r.status.isBounced = true) :
    ∃ dsn, buildDsn env message mta original now = some dsn := by
  obtain ⟨r, hr⟩ := exists_mem_of_ne_nil _ hsome
  have hfailure : ∃ f, failureOf r = some f := by
    have hstatus := hbounced r hr
    unfold failureOf
    cases h : r.status with
    | bounced reason => exact ⟨_, rfl⟩
    | _ =>
      rw [h] at hstatus
      cases hstatus
  obtain ⟨f, hf⟩ := hfailure
  have hne : message.recipients.filterMap failureOf ≠ [] :=
    ne_nil_of_mem (mem_filterMap.2 ⟨r, hr, hf⟩)
  exact ⟨_, by simp [buildDsn, hpath, hne]; rfl⟩

theorem settling_reports (before after : QueuedMessage) (original : Bytes) (now : ℕ) (t : Trace sig)
    (hpath : after.returnPath = before.returnPath) :
    Settling P
      (fun u _ => ∃ reports, Owes out now before after reports ∧
        reportsIn u = reports ++ reportsIn t) t
      (raiseBounces out after (before.recipients.map fun r => r.status.isPending) original now) := by
  have hlisted : newlyBounced after (before.recipients.map fun r => r.status.isPending) =
      bouncedBy before after := rfl
  unfold raiseBounces Owes
  simp only [hlisted, hpath]
  split
  next => exact .ret ⟨.refl t, [], rfl, rfl⟩
  next howed =>
    obtain ⟨hsender, hsome⟩ := not_or.1 howed
    obtain ⟨dsn, hdsn⟩ := exists_buildDsn out.services.toEnv
      { after with returnPath := before.returnPath, recipients := bouncedBy before after }
      (out.hostname.getD reportingMta) original now hsender hsome
      fun r hr => isBounced_of_mem_bouncedBy hr
    rw [hdsn]
    refine (settling_enqueue dsn _ t).bind fun u _ hu => .ret ?_
    obtain ⟨htu, hash, next, rfl⟩ := hu
    exact ⟨htu, _, ⟨original, dsn, hash, hdsn, rfl⟩, rfl⟩

structure Settles (now : ℕ) (before after : QueuedMessage) (t u : Trace sig) : Prop where
  path : after.returnPath = before.returnPath
  advances : Advances before.recipients after.recipients
  reports : ∃ reports, Owes out now before after reports ∧ reportsIn u = reports ++ reportsIn t

theorem not_pending_and_bounced (r : QueueRecipient) :
    (r.status.isPending && r.status.isBounced) = false := by
  cases r.status <;> rfl

theorem bouncedBy_map (before : QueuedMessage) {f : QueueRecipient → QueueRecipient}
    (hf : ∀ r, (r.status.isPending && (f r).status.isBounced) = false) :
    bouncedBy before { before with recipients := before.recipients.map f } = [] := by
  unfold bouncedBy newlyBounced
  rw [zip_map', map_eq_nil_iff, filter_eq_nil_iff]
  intro x hx
  obtain ⟨r, -, rfl⟩ := mem_map.1 hx
  simpa using hf r

theorem bouncedBy_delay (before : QueuedMessage) (now due : ℕ) :
    bouncedBy before { before with recipients := before.recipients.map (·.delay now due) } = [] := by
  refine bouncedBy_map before fun r => ?_
  unfold QueueRecipient.delay
  split
  · exact Bool.and_false _
  · exact not_pending_and_bounced r

theorem settling_settle {s : Trace sig} (original : Bytes)
    (hreports : reportsIn t = reportsIn s) (hpath : message.returnPath = read.returnPath)
    (hback : WritesBack t id read message) :
    Settling P (fun u after => Settles out now read after s u ∧ WritesBack u id read after) t (do
      raiseBounces out message (read.recipients.map fun r => r.status.isPending) original now
      pure message) := by
  have hraised := settling_reports (P := fun _ => False) out read message original now t hpath
  refine (hraised.mono (fun _ h => h.mono (Toward.mono (fun _ h => h.elim) fun _ h => h))
    fun _ _ h => h).bind fun u _ hu => .ret ?_
  obtain ⟨htu, reports, howed, hu⟩ := hu
  rw [hreports] at hu
  exact ⟨htu.mono (Toward.mono (fun _ h => h.elim) fun _ h => h),
    ⟨hpath, hback.advances, reports, howed, hu⟩, hback.body, hback.advances,
    fun hrows j hj => hback.delivered (hrows.mono htu.subset) j (hj.of_extends htu not_false)⟩

theorem settling_treatMessage
    (hread : (id, message) ∈ recordsRead t) (hpending : message.isComplete = false)
    (hnew : UniqueRows t → ∀ j, ¬ Attempted ⟨id, j⟩ t) :
    Settling (fun ref => ref.queueId = id ∧ message.PendingAt ref.index)
      (fun u after => Settles out now message after t u ∧ WritesBack u id message after) t
      (treatMessage out id message now) := by
  unfold treatMessage
  split
  next =>
    have hback : WritesBack t id message { message with
        recipients := message.recipients.map (·.delay now (out.limits.windowEnd now)) } :=
      .untried (fun _ => delay_of_settled now _) hnew
    refine .ret ⟨.refl t, ⟨rfl, hback.advances, [], ?_, rfl⟩, hback⟩
    rw [Owes, if_pos (.inr (bouncedBy_delay message now _))]
  next =>
    refine .perform ⟨id, message, hread, rfl, hpending⟩ (.refl t) fun body => ?_
    refine Settling.since ?_ (.cons (by trivial) body t)
    generalize hstart : (⟨.blobGet message.blobHash, body⟩ :: t : Trace sig) = start
    have hsub : t ⊆ start := hstart ▸ subset_cons_self _ _
    have hfirst : reportsIn start = reportsIn t := hstart ▸ rfl
    have hnew' : UniqueRows start → ∀ j, ¬ Attempted ⟨id, j⟩ start := by
      subst hstart
      exact fun hrows j hj => hnew (hrows.mono hsub) j (hj.of_inner trivial)
    cases body with
    | none =>
      exact settling_settle out now _ hfirst rfl (.untried (fun _ => loseBody_of_settled) hnew')
    | some raw =>
      refine ((tame_listHosted out).tries start).settling fun u hosted _ htu => ?_
      have htried := tries_attemptRecipients out hosted message.returnPath raw now 0
        message.recipients (recordsRead_mono (List.Subset.trans hsub htu.subset) hread) (by simp)
        fun hrows j _ hj => hnew' (hrows.mono htu.subset) j (hj.of_extends htu not_false)
      refine Tries.settling (htried.noting.weaken (fun _ _ h => h)
        (Toward.mono (fun _ h => ⟨h.1, h.2.2⟩) fun _ h => h)) fun v tried _ h => ?_
      refine settling_settle out now raw ?_ rfl ⟨rfl, h.2.advances, fun hrows j hj => ?_⟩
      · rw [reportsIn_of_extends h.1, reportsIn_of_extends htu, hfirst]
      rw [← Nat.zero_add j] at hj
      rcases h.2.delivered j hj with hold | hsettled
      · refine absurd ⟨_, hold.of_extends htu not_false⟩ (hnew' ?_ _)
        exact hrows.mono (List.Subset.trans htu.subset h.1.subset)
      · exact hsettled

theorem steps_processMessage
    (hread : (id, message) ∈ recordsRead t) (hpending : message.isComplete = false)
    (hnew : UniqueRows t → ∀ j, ¬ Attempted ⟨id, j⟩ t) :
    Steps (fun ref => ref.queueId = id) (fun _ _ => True) t
      (processMessage out id message now) := by
  rw [processMessage_eq]
  refine ((settling_treatMessage out now hread hpending hnew).steps.noting.weaken (fun _ _ h => h)
    (Toward.mono (fun _ h => h.1) fun _ h => h)).bind fun u after _ h => ?_
  exact steps_commit (recordsRead_mono h.1.subset hread) h.2.2

end Messages

/-! ## Passes -/

section Passes
variable (out : OutboundDelivery)

theorem DueBatch.messages_add (now : ℕ) (batch : DueBatch) (row : Sigma Val) :
    (batch.add now row).messages = batch.messages ∨
      ∃ id m, recordOfRow row = some (id, m) ∧ m.isComplete = false ∧
        (batch.add now row).messages = batch.messages ++ [⟨id, m⟩] := by
  unfold DueBatch.add
  split
  next id m =>
    split
    next => exact .inl rfl
    next hcomplete =>
      split
      next => exact .inr ⟨id, m, rfl, by simpa using hcomplete, rfl⟩
      next =>
        split
        · exact .inl rfl
        · exact .inl rfl
  next => exact .inl rfl

theorem messages_scan (now : ℕ) (rows : List (Sigma Val)) (batch : DueBatch) :
    ∃ dues : List DueMessage,
      (rows.foldl (DueBatch.add now) batch).messages = batch.messages ++ dues ∧
        (dues.map fun d => (d.id, d.message)).Sublist (rows.filterMap recordOfRow) ∧
        ∀ d ∈ dues, d.message.isComplete = false := by
  induction rows generalizing batch with
  | nil => exact ⟨[], by simp, .slnil, by simp⟩
  | cons row rows ih =>
    obtain ⟨dues, hdues, hsub, hpending⟩ := ih (batch.add now row)
    rw [foldl_cons, hdues]
    rcases DueBatch.messages_add now batch row with h | ⟨id, m, hrow, hm, h⟩
    · refine ⟨dues, by rw [h], hsub.trans ?_, hpending⟩
      exact (sublist_cons_self row rows).filterMap recordOfRow
    · refine ⟨⟨id, m⟩ :: dues, by simp [h], ?_, ?_⟩
      · rw [filterMap_cons_some hrow]
        exact hsub.cons_cons _
      · simpa using ⟨hm, hpending⟩

structure Due (t : Trace sig) (dues : List DueMessage) : Prop where
  read : ∀ d ∈ dues, (d.id, d.message) ∈ recordsRead t
  pending : ∀ d ∈ dues, d.message.isComplete = false
  untried : UniqueRows t → ∀ d ∈ dues, ∀ j, ¬ Attempted ⟨d.id, j⟩ t
  nodup : UniqueRows t → (dues.map DueMessage.id).Nodup

theorem steps_scanDue (now : ℕ) (hnew : ∀ rcpt, ¬ Attempted rcpt t) :
    Steps (fun _ => False) (fun u batch => Due u batch.messages) t (scanDue now) := by
  refine steps_exec trivial trivial fun rows => .ret ?_
  obtain ⟨dues, hdues, hsub, hpending⟩ := messages_scan now rows ⟨[], none⟩
  rw [hdues]
  have hrows : recordsIn ⟨.iterate ⟨.queue, none, none⟩, rows⟩ = rows.filterMap recordOfRow := rfl
  refine ⟨fun d hd => ?_, hpending, fun _ d _ j hj => ?_, fun hunique => ?_⟩
  · refine mem_flatMap.2 ⟨_, mem_cons_self, ?_⟩
    exact hsub.subset (mem_map.2 ⟨d, hd, rfl⟩)
  · exact hnew _ (hj.of_inner trivial)
  · have hnodup := hunique _ mem_cons_self
    have hmap := (hsub.map Prod.fst).nodup hnodup
    rwa [map_map] at hmap

theorem Due.tail {d : DueMessage} {rest : List DueMessage}
    (h : Due t (d :: rest)) (htu : Extends (Toward (fun ref => ref.queueId = d.id) fun _ => True) t u) :
    Due u rest := by
  refine ⟨fun e he => recordsRead_mono htu.subset (h.read e (mem_cons_of_mem d he)),
    fun e he => h.pending e (mem_cons_of_mem d he), fun hrows e he j hj => ?_,
    fun hrows => (nodup_cons.1 (h.nodup (hrows.mono htu.subset))).2⟩
  have hunique := hrows.mono htu.subset
  have hne : e.id ≠ d.id := by
    intro heq
    refine (nodup_cons.1 (h.nodup hunique)).1 ?_
    rw [← heq]
    exact mem_map.2 ⟨e, he, rfl⟩
  exact h.untried hunique e (mem_cons_of_mem d he) j (hj.of_extends htu hne)

theorem steps_process (now : ℕ) {dues : List DueMessage} (h : Due t dues) :
    Steps (fun _ => True) (fun _ _ => True) t (process out now dues) := by
  induction dues generalizing t with
  | nil => exact .ret trivial
  | cons d rest ih =>
    have hd := steps_processMessage out now (h.read d mem_cons_self)
      (h.pending d mem_cons_self) fun hrows => h.untried hrows d mem_cons_self
    refine (hd.caught.noting.weaken (fun _ _ h => h)
      (Toward.mono (fun _ _ => trivial) fun _ h => h)).bind
      fun u _ _ hu => ih (h.tail hu.1)

theorem steps_queuePass : Steps (fun _ => True) (fun _ _ => True) [] (queuePass out) := by
  refine steps_exec trivial trivial fun now => ?_
  have hscan := steps_scanDue now (t := [⟨.now, now⟩]) fun rcpt hrcpt => by
    obtain ⟨outcome, target, here, hmem⟩ := hrcpt
    simp at hmem
  refine (hscan.caught.weaken (fun _ _ h => h) (Toward.mono (fun _ _ => trivial) fun _ h => h)).bind
    fun u batch _ hbatch => ?_
  cases batch with
  | ok batch => exact steps_process out now (hbatch batch rfl)
  | error err => exact .ret trivial

theorem steps_retryNow (id now : ℕ) :
    Steps (fun _ => False) (fun _ _ => True) [] (retryNow id now) := by
  refine steps_exec trivial trivial fun message => ?_
  cases message with
  | none => exact .ret trivial
  | some message =>
    refine (steps_persist (mem_flatMap.2 ⟨_, mem_cons_self, mem_cons_self⟩)
      (.untried (fun _ => hasten_of_settled now) fun _ j hj => ?_)).bind fun _ _ _ _ => .ret trivial
    obtain ⟨outcome, target, here, hmem⟩ := hj
    simp at hmem

end Passes

end IrixMail.Smtp
