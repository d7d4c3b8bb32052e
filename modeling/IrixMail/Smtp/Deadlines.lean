import IrixMail.Smtp.QueueSteps

/-!
# Deadlines of queued mail

A recipient whose deadline has passed is settled by the next pass that finds it due: what
becomes of it is a delivery, a bounce, or a deferral that `nextAfterDeferral` turns into
a bounce. The rate limiter puts a message off before any of this, and looks at no
deadline. A pass is also cut short where an answer to the message makes the vacation
responder panic.
-/

namespace IrixMail.Smtp
open Library Prog Store Mail Directory

/-! ## Programs that do not panic -/

def Calm (digest : Digest) {α : Type} (p : Action α) : Prop :=
  ∀ w, (p.run (machine digest) w).1 ≠ .error .panicked

def Total (digest : Digest) {α : Type} (p : Action α) : Prop :=
  ∀ w, ∃ a w', p.run (machine digest) w = (.ok a, w')

section Rules
variable {digest : Digest} {α β : Type}

theorem calm_pure (a : α) : Calm digest (pure a : Action α) := fun _ => nofun

variable {f : α → Action β} {p : Action α}

theorem Calm.bind (hp : Calm digest p)
    (hf : ∀ a, Calm digest (f a)) : Calm digest (p >>= f) := by
  intro w
  have h := hp w
  rw [run_bind]
  generalize p.run (machine digest) w = result at h
  obtain ⟨_ | a, w'⟩ := result
  · exact fun he => h (congrArg Except.error (Except.error.inj he))
  · exact hf a w'

theorem calm_exec (c : Cmd) : Calm digest (exec c) := fun _ => nofun

theorem calm_fail {e : Error} (he : e ≠ .panicked) : Calm digest (.fail e : Action α) :=
  fun _ h => he (Except.error.inj h)

theorem calm_checked {x : Except Error α} (hx : x ≠ .error .panicked) :
    Calm digest (checked x) := by
  cases x with
  | ok a => exact calm_pure a
  | error e => exact calm_fail fun he => hx (he ▸ rfl)

theorem total_pure (a : α) : Total digest (pure a : Action α) := fun w => ⟨a, w, rfl⟩

theorem total_exec (c : Cmd) : Total digest (exec c) := fun _ => ⟨_, _, rfl⟩

theorem Total.bind (hp : Total digest p)
    (hf : ∀ a, Total digest (f a)) : Total digest (p >>= f) := by
  intro w
  obtain ⟨a, w', hrun⟩ := hp w
  obtain ⟨b, w'', hrun'⟩ := hf a w'
  exact ⟨b, w'', by rw [run_bind, hrun]; exact hrun'⟩

theorem Total.calm (hp : Total digest p) : Calm digest p := by
  intro w
  obtain ⟨a, w', hrun⟩ := hp w
  rw [hrun]
  nofun

theorem Calm.caught (hp : Calm digest p) : Total digest (caught p) := by
  intro w
  have h := hp w
  unfold Store.caught
  rw [run_bind, run_attempt]
  dsimp only
  split
  next hpanic => exact absurd hpanic h
  next => exact ⟨_, _, rfl⟩

end Rules

section Programs
variable {digest : Digest}

theorem handed_calm : Handed fun ⦃_⦄ p => Calm digest p where
  ret := calm_pure
  bind := Calm.bind
  catches hp := hp.caught.calm
  looks _ := calm_exec _
  domain id := by
    refine (calm_exec _).bind fun domain => ?_
    cases domain with
    | some domain => exact calm_pure _
    | none => exact calm_fail nofun

theorem calm_commitMessage (env : Env) (a documentId : ℕ) (raw : Bytes)
    (metadata : MessageMetadata) (data : MessageData) (threading : List WriteOp) :
    Calm digest (commitMessage env a documentId raw metadata data threading) := by
  refine (handed_editOps handed_calm _ _ _ _).bind fun index => ?_
  refine Calm.bind ?_ fun change => calm_exec _
  exact ((calm_exec _).bind fun _ => calm_pure _).bind fun _ => calm_pure _

theorem calm_deliver (env : Env) (request : DeliveryRequest) :
    Calm digest (deliver env request) := by
  refine (calm_checked ?_).bind fun metadata => ?_
  · unfold ingest
    split <;> nofun
  · dsimp only
    split
    · exact calm_pure _
    · split
      · exact calm_pure _
      · refine (calm_checked ?_).bind fun inbox => ?_
        · unfold findInbox
          split <;> nofun
        · refine ((calm_exec _).bind fun _ => (calm_exec _).bind fun _ => calm_pure _).bind
            fun usage => ?_
          dsimp only
          split
          · exact calm_pure _
          · refine (calm_exec _).bind fun hash => ?_
            refine Calm.bind ?_ fun threading => ?_
            · exact Calm.bind (handed_lookupThreads handed_calm _ _ _) fun _ => calm_pure _
            refine Calm.bind (handed_fileInto handed_calm _ _ _) fun filed => ?_
            exact (calm_commitMessage _ _ _ _ _ _ _).bind fun _ => calm_pure _

theorem total_enqueue (raw : Bytes) (request : Enqueue) : Total digest (enqueue raw request) :=
  (total_exec _).bind fun _ => ((total_exec _).bind fun _ => total_pure _).bind fun _ =>
    (total_exec _).bind fun _ => total_pure _

/-- What the vacation responder is asked to answer does not make it panic: an answer to the
message has a subject, if the message is parsed at all. -/
def QuietlyAnswered (env : Env) (raw : Bytes) : Prop :=
  ∀ p, env.parse raw = some p → deriveSubject p ≠ none

variable {raw : Bytes} {svc : Services}

theorem calm_respondVacation (h : QuietlyAnswered svc.toEnv raw) (account : Account)
    (recipient mailFrom : String) (now : ℕ) :
    Calm digest (respondVacation svc account recipient mailFrom raw now) := by
  refine (calm_exec _).caught.calm.bind fun r => ?_
  split
  · exact calm_pure _
  next last =>
    split
    next heq => exact absurd heq (evaluateVacation_ne_panicked h)
    next => exact calm_pure _
    next => exact calm_pure _
    next =>
      refine (total_enqueue _ _).calm.caught.calm.bind fun r => ?_
      split
      · exact (calm_exec _).caught.calm.bind fun _ => calm_pure _
      · exact calm_pure _

theorem delivers_calm (h : QuietlyAnswered svc.toEnv raw) :
    Delivers (fun ⦃_⦄ p => Calm digest p) svc raw where
  toHanded := handed_calm
  account id := by
    refine (calm_exec _).bind fun account => ?_
    split
    · exact calm_pure _
    · exact calm_fail nofun
  files := calm_deliver _
  relays _ _ := (total_enqueue _ _).calm
  answers := calm_respondVacation h

theorem total_deliverLocal (h : QuietlyAnswered svc.toEnv raw)
    (accountId : ℕ) (mailFrom recipient : String) (now : ℕ) :
    Total digest (deliverLocal svc accountId mailFrom recipient raw now) := by
  refine (Calm.caught (handed_fileLocally (delivers_calm h) _ _ _ _)).bind fun r => ?_
  split <;> exact total_pure _

theorem total_followRoutes (h : QuietlyAnswered svc.toEnv raw)
    (hosted : List String) (mailFrom : String) (now hops : ℕ) (target : String) :
    Total digest (followRoutes svc hosted mailFrom raw now hops target) := by
  induction hops generalizing target with
  | zero => exact total_pure _
  | succ hops ih =>
    refine (Calm.caught (handed_route handed_calm _ _)).bind fun r => ?_
    split
    · exact (total_deliverLocal h _ _ _ _).bind fun _ => total_pure _
    · exact ih _
    · exact total_pure _
    · exact total_pure _
    · exact total_pure _

theorem total_listHosted (out : OutboundDelivery) : Total digest (listHosted out) := by
  unfold listHosted
  split
  · refine Total.bind ?_ fun _ => total_pure _
    refine ((calm_exec _).bind fun _ => calm_pure _).caught.bind fun r => ?_
    split <;> exact total_pure _
  · exact total_pure _

theorem total_raiseBounces (out : OutboundDelivery) (message : QueuedMessage)
    (pendingBefore : List Bool) (original : Bytes) (now : ℕ) :
    Total digest (raiseBounces out message pendingBefore original now) := by
  unfold raiseBounces
  dsimp only
  split
  · exact total_pure _
  · split
    · exact total_pure _
    · exact (total_enqueue _ _).bind fun _ => total_pure _

end Programs

/-! ## One pass -/

/-- Neither the sender nor its domain has reached its limit, if there is one. -/
def OutboundLimits.Admits (limits : OutboundLimits) (counts : RateCounts) (sender : String) :
    Prop :=
  limits.isDisabled = true ∨
    (limits.maxPerSender = 0 ∨ counts .sender (toAsciiLowercase sender) < limits.maxPerSender) ∧
    (limits.maxPerDomain = 0 ∨
      counts .domain (domainOf (toAsciiLowercase sender)) < limits.maxPerDomain)

instance (limits : OutboundLimits) (counts : RateCounts) (sender : String) :
    Decidable (limits.Admits counts sender) := by
  unfold OutboundLimits.Admits
  infer_instance

section Pass
variable {digest : Digest} {out : OutboundDelivery} {now : ℕ}

theorem settled_applyAttempt {rcpt : QueueRecipient} {deadline : ℕ}
    (hexpiry : rcpt.expiry = .at deadline) (hpast : deadline ≤ now) (attempt : DeliveryAttempt) :
    (applyAttempt rcpt attempt now).status.isPending = false := by
  cases attempt with
  | delivered => rfl
  | bounced reason => rfl
  | deferred reason => simp [applyAttempt, nextAfterDeferral, hexpiry, Expiry.isExpired, hpast,
      RecipientStatus.isPending]

variable {raw : Bytes} {hosted : Option (List String)}

/-- The recipient is tried in this pass, and is of a domain that is hosted here. -/
def DueHere (hosted : Option (List String)) (now : ℕ) (rcpt : QueueRecipient) : Prop :=
  rcpt.isDue now = true ∧ ∃ domains ∈ hosted, isHosted domains rcpt.address = true

theorem total_attemptHere {rcpt : QueueRecipient} (hdue : rcpt.isDue now = true)
    (h : DueHere hosted now rcpt → QuietlyAnswered out.services.toEnv raw) (returnPath : String) :
    Total digest (attemptHere out hosted returnPath raw now rcpt.address) := by
  unfold attemptHere
  split
  next domains =>
    by_cases hhosted : isHosted domains rcpt.address = true
    · exact total_followRoutes (h ⟨hdue, domains, rfl, hhosted⟩) _ _ _ _ _
    · intro w
      refine ⟨(rcpt.address, none), w, ?_⟩
      unfold followRoutes route
      rw [if_pos (by simpa using hhosted)]
      rfl
  next => exact total_pure _

theorem run_attemptIfDue (ref : RecipientRef) (returnPath : String) (rcpt : QueueRecipient)
    (h : DueHere hosted now rcpt → QuietlyAnswered out.services.toEnv raw) (w : World) :
    ∃ tried w', (attemptIfDue out ref hosted returnPath raw now rcpt).run (machine digest) w =
        (.ok tried, w') ∧
      (rcpt.isDue now = true → ∃ attempt, tried = applyAttempt rcpt attempt now) := by
  unfold attemptIfDue
  split
  next hdue =>
    obtain ⟨⟨target, here⟩, w', hhere⟩ :=
      (total_attemptHere hdue h returnPath : Total digest _) w
    obtain ⟨attempt, w'', hattempt⟩ :
        ∃ attempt w'', (attemptDelivery ref target here).run (machine digest) w' =
          (.ok attempt, w'') := ⟨_, _, rfl⟩
    unfold attemptRecipient
    rw [run_bind, hhere]
    dsimp only
    rw [run_bind, hattempt]
    dsimp only
    split
    · obtain ⟨_, w₃, hrecord⟩ := (calm_exec _ : Calm digest (exec _)).caught w''
      refine ⟨applyAttempt rcpt attempt now, w₃, ?_, fun _ => ⟨attempt, rfl⟩⟩
      rw [recordOutbound, run_bind, hrecord]
      rfl
    · exact ⟨_, w'', rfl, fun _ => ⟨attempt, rfl⟩⟩
  next hdue => exact ⟨rcpt, w, rfl, fun h => absurd h hdue⟩

theorem run_attemptRecipients (id : ℕ) (returnPath : String) (i : ℕ)
    (rcpts : List QueueRecipient)
    (h : ∀ rcpt ∈ rcpts, DueHere hosted now rcpt → QuietlyAnswered out.services.toEnv raw)
    (w : World) :
    ∃ tried w', (attemptRecipients out id hosted returnPath raw now i rcpts).run (machine digest) w =
        (.ok tried, w') ∧
      ∀ (j : ℕ) rcpt, rcpts[j]? = some rcpt → rcpt.isDue now = true →
        ∃ attempt, tried[j]? = some (applyAttempt rcpt attempt now) := by
  induction rcpts generalizing i w with
  | nil => exact ⟨[], w, rfl, fun j rcpt hrcpt => by simp at hrcpt⟩
  | cons first rest ih =>
    obtain ⟨hfirst, hrest⟩ := List.forall_mem_cons.1 h
    obtain ⟨tried, w', hfirst, htried⟩ :=
      @run_attemptIfDue digest out now raw hosted ⟨id, i⟩ returnPath first hfirst w
    obtain ⟨others, w'', hrest, hothers⟩ := ih (i + 1) hrest w'
    refine ⟨tried :: others, w'', ?_, ?_⟩
    · rw [attemptRecipients, run_bind, hfirst]
      dsimp only
      rw [run_bind, hrest]
      rfl
    · intro j rcpt hrcpt hdue
      cases j with
      | zero =>
        obtain rfl : first = rcpt := by simpa using hrcpt
        obtain ⟨attempt, rfl⟩ := htried hdue
        exact ⟨attempt, rfl⟩
      | succ j => exact hothers j rcpt (by simpa using hrcpt) hdue

theorem run_commit (id : ℕ) (message : QueuedMessage) (w : World) :
    ∃ w', (commit id message).run (machine digest) w = (.ok (), w') ∧
      w'.records.lookup (.queue id) = if message.isComplete then none else some message := by
  unfold commit
  split
  · exact ⟨_, rfl, by simp [machine]⟩
  · exact ⟨_, rfl, by simp [machine]⟩

/-- The recipient is settled, or the record is gone because all of them are. -/
def SettledIn (w : World) (id j : ℕ) : Prop :=
  ∀ m, w.records.lookup (.queue id) = some m → m.SettledAt j

def afterPass (digest : Digest) (out : OutboundDelivery) (id : ℕ)
    (message : QueuedMessage) (now : ℕ) (w : World) : World :=
  ((processMessage out id message now).run (machine digest) w).2

theorem settledIn_commit {id j : ℕ} {message : QueuedMessage} {w w' : World} {u : Unit}
    (hrun : (commit id message).run (machine digest) w = (.ok u, w'))
    (hsettled : message.SettledAt j) : SettledIn w' id j := by
  obtain ⟨w'', hrun', hlookup⟩ := @run_commit digest id message w
  obtain ⟨-, rfl⟩ := Prod.mk.inj (hrun.symm.trans hrun')
  intro m hm
  rw [hlookup] at hm
  split_ifs at hm
  obtain rfl := Option.some.inj hm
  exact hsettled

theorem settledIn_of_treated {id j : ℕ} {message : QueuedMessage} {pendingBefore : List Bool}
    {original : Bytes} (hsettled : message.SettledAt j) (w : World) :
    SettledIn ((do
      raiseBounces out message pendingBefore original now
      commit id message : Action Unit).run (machine digest) w).2 id j := by
  obtain ⟨_, w', hbounces⟩ :=
    (total_raiseBounces out message pendingBefore original now : Total digest _) w
  obtain ⟨w'', hcommit, -⟩ := @run_commit digest id message w'
  rw [run_bind, hbounces]
  dsimp only
  rw [hcommit]
  exact settledIn_commit hcommit hsettled

variable {id j deadline : ℕ} {message : QueuedMessage} {rcpt : QueueRecipient} {w : World}

theorem check_eq_allow_iff (limits : OutboundLimits) (counts : RateCounts) (sender : String) :
    (limits.check counts sender).1 = .allow ↔ limits.Admits counts sender := by
  unfold OutboundLimits.check OutboundLimits.Admits OutboundLimits.isOver
  by_cases hdisabled : limits.isDisabled = true
  · simp [hdisabled]
  · simp only [hdisabled, Bool.false_eq_true, if_false, false_or]
    split_ifs with hsender hdomain
    · simp_all
    · simp_all
    · simp_all
      omega

section Allowed
variable (hrcpt : message.recipients[j]? = some rcpt) (hdue : rcpt.isDue now = true)
include hrcpt hdue

/-- If the pass finds domains hosted here, and a recipient of one of them due, then an answer
to the body does not panic. -/
def QuietPass (digest : Digest) (out : OutboundDelivery) (w : World) (message : QueuedMessage)
    (now : ℕ) : Prop :=
  ∀ body hosted w', w.blobs.lookup message.blobHash = some body →
    (listHosted out).run (machine digest) w = (.ok hosted, w') →
    ∀ rcpt ∈ message.recipients, DueHere hosted now rcpt →
      QuietlyAnswered out.services.toEnv body.bytes

theorem settledIn_of_allowed (hexpiry : rcpt.expiry = .at deadline) (hpast : deadline ≤ now)
    (hquiet : QuietPass digest out w message now)
    (hallowed : out.isAllowed id message.returnPath = true) :
    SettledIn (afterPass digest out id message now w) id j := by
  unfold afterPass processMessage
  rw [if_neg (by simp [hallowed]), run_exec_bind]
  simp only [machine]
  cases hbody : w.blobs.lookup message.blobHash with
  | none =>
    -- the body is gone: every pending recipient bounces
    refine settledIn_of_treated ⟨rcpt.loseBody, by simp [hrcpt], ?_⟩ w
    rw [QueueRecipient.loseBody, if_pos (isPending_of_isDue hdue)]
    rfl
  | some body =>
    obtain ⟨hosted, w₁, hhosted⟩ := (total_listHosted out : Total digest _) w
    obtain ⟨tried, w₂, htried, hall⟩ := @run_attemptRecipients digest out now body.bytes hosted id
      message.returnPath 0 message.recipients (hquiet body hosted w₁ hbody hhosted) w₁
    obtain ⟨attempt, hattempt⟩ := hall j rcpt hrcpt hdue
    simp only [Option.map_some]
    rw [run_bind, hhosted]
    dsimp only
    rw [run_bind, htried]
    exact settledIn_of_treated
      ⟨_, hattempt, settled_applyAttempt hexpiry hpast attempt⟩ w₂

theorem not_settledIn_of_denied (hdenied : out.isAllowed id message.returnPath = false) :
    ¬ SettledIn (afterPass digest out id message now w) id j := by
  have hany : message.hasDueRecipient now = true :=
    List.any_eq_true.2 ⟨rcpt, List.mem_of_getElem? hrcpt, hdue⟩
  generalize hend : out.limits.windowEnd now = due
  have hdelayed : (message.recipients.map (·.delay now due))[j]? = some (rcpt.delay now due) := by
    simp [hrcpt]
  have hpending : (rcpt.delay now due).status.isPending = true := by
    simp [QueueRecipient.delay, hdue, RecipientStatus.isPending]
  unfold afterPass processMessage
  rw [if_pos (by simp [hany, hdenied])]
  simp only [hend]
  obtain ⟨w', hrun, hlookup⟩ := @run_commit digest id
    { message with recipients := message.recipients.map (·.delay now due) } w
  have hincomplete : QueuedMessage.isComplete
      { message with recipients := message.recipients.map (·.delay now due) } = false := by
    rw [QueuedMessage.isComplete, List.all_eq_false]
    exact ⟨_, List.mem_of_getElem? hdelayed, by simp [RecipientStatus.isSettled, hpending]⟩
  rw [hincomplete] at hlookup
  rw [hrun]
  intro hsettled
  obtain ⟨r, hr, hstatus⟩ := hsettled _ hlookup
  obtain rfl := Option.some.inj (hr.symm.trans hdelayed)
  rw [hpending] at hstatus
  cases hstatus

end Allowed

end Pass

/-! ## A message past its deadline -/

def lateRecipient : QueueRecipient := .new "a@example.org" 0 (.at 10)

def lateMessage : QueuedMessage :=
  (⟨0, "carol@example.com", [("a@example.org", .at 10)], 0⟩ : Enqueue).messageOf [65] [65]

theorem lateMessage_recipient : lateMessage.recipients[0]? = some lateRecipient := rfl

def busyWorld : World :=
  { (World.empty (.new 0) 0).putBlob [65] [65] with network := [.answered (.deferred "busy")] }

/-- The sender has sent so many messages in this hour. -/
def afterSending (sent : ℕ) : OutboundDelivery :=
  { OutboundDelivery.plain with
    rateCounters := fun _ axis identity =>
      if axis = .sender ∧ identity = "carol@example.com" then sent else 0 }

end IrixMail.Smtp
