import IrixMail.Directory.Login
import IrixMail.Library.Discipline

/-!
# Guessing passwords in parallel

Any number of logins for an account run in any interleaving of their steps. A
login that has passed the check of the account and has not counted its failure
yet is in flight. When no login makes its check while another is in flight, at
most as many logins try the credentials of the account as may fail.
-/

namespace IrixMail.Directory
open Library Prog Store List

structure LoginRequest where
  ip : Option String
  username : String
  secret : String
  purpose : LoginPurpose

inductive LoginClient
  | login (request : LoginRequest)
  | clock (millis : ℕ)

namespace LoginRuns
variable (secrets : Secrets) (policy : ThrottlePolicy) (a : ℕ)

def prog : LoginClient → Action (Option LoginAttempt)
  | .login request => do
    let attempt ← attemptLogin secrets policy request.ip request.username request.secret
      request.purpose
    pure (some attempt)
  | .clock millis => do
    exec (.tick millis)
    pure none

/-! ## The steps of a login -/

def Checked (t : Trace sig) : Prop :=
  ∃ n, (⟨.ttlGet (.account a), n⟩ : Access) ∈ t

/-- The count was low enough. -/
def Passed (t : Trace sig) : Prop :=
  ∃ n, (⟨.ttlGet (.account a), n⟩ : Access) ∈ t ∧ n.getD 0 < policy.maxFailures

/-- The login has looked the credentials up to try them. -/
def Verified (t : Trace sig) : Prop :=
  ∃ found, (⟨.get (.credentials a), found⟩ : Access) ∈ t

/-- The login has counted its failure. -/
def Recorded (t : Trace sig) : Prop :=
  ∃ n ttl, (⟨.ttlSet (.account a) n ttl, ()⟩ : Access) ∈ t

def Elsewhere : Cmd → Prop
  | .ttlGet key => key ≠ .account a
  | .ttlSet key _ _ => key ≠ .account a
  | .ttlRemove key => key ≠ .account a
  | .get l => l ≠ .credentials a
  | _ => True

inductive Step (t : Trace sig) : Cmd → Prop
  | elsewhere {c : Cmd} : Elsewhere a c → Step t c
  | check : ¬ Checked a t → ¬ Recorded a t → Step t (.ttlGet (.account a))
  | verify : Passed policy a t → Step t (.get (.credentials a))
  | count : Passed policy a t → ¬ Recorded a t → Step t (.ttlGet (.account a))
  | record {n : Option ℕ} {t' : Trace sig} : t = ⟨.ttlGet (.account a), n⟩ :: t' →
      Passed policy a t' → ¬ Recorded a t' →
      Step t (.ttlSet (.account a) (Throttle.next (n.getD 0)) policy.window)
  | reset : Step t (.ttlRemove (.account a))

def Untouched (t : Trace sig) : Prop := ∀ x ∈ t, Elsewhere a x.1

variable {a}

variable {t : Trace sig} {x : Access} {c : Cmd} {P : Trace sig → Prop} {account : Account}

theorem Untouched.cons (hx : Elsewhere a x.1)
    (h : Untouched a t) : Untouched a (x :: t) :=
  forall_mem_cons.2 ⟨hx, h⟩

theorem Untouched.not_checked (h : Untouched a t) : ¬ Checked a t :=
  fun ⟨_, hmem⟩ => h _ hmem rfl

theorem Untouched.not_recorded (h : Untouched a t) : ¬ Recorded a t :=
  fun ⟨_, _, hmem⟩ => h _ hmem rfl

variable (a)

/-- A program that has nothing to do with the account. -/
abbrev Aside {α : Type} (t : Trace sig) (p : Action α) : Prop :=
  Obeys (Step policy a) (fun _ => True) (fun t _ => Untouched a t) t p

variable {policy a}

theorem aside_exec {α : Type} {f : c.Res → Action α}
    (hc : Elsewhere a c) (ht : Untouched a t)
    (hf : ∀ r, Untouched a (⟨c, r⟩ :: t) → Aside policy a (⟨c, r⟩ :: t) (f r)) :
    Aside policy a t (exec c >>= f) :=
  .perform (.elsewhere hc) fun r => hf r (ht.cons hc)

theorem aside_get (t : Trace sig) (ht : Untouched a t) (id : ℕ) :
    Aside policy a t (AccountRegistry.get id) := by
  refine aside_exec (by simp [Elsewhere]) ht fun found hfound => ?_
  cases found with
  | none => exact .fail trivial
  | some account => exact .ret hfound

theorem aside_getDomain (t : Trace sig) (ht : Untouched a t) (id : ℕ) :
    Aside policy a t (DomainRegistry.get id) := by
  refine aside_exec (by simp [Elsewhere]) ht fun found hfound => ?_
  cases found with
  | none => exact .fail trivial
  | some domain => exact .ret hfound

theorem aside_getByName (t : Trace sig) (ht : Untouched a t) (name : String) :
    Aside policy a t (DomainRegistry.getByName name) := by
  refine aside_exec (by simp [Elsewhere]) ht fun found hfound => ?_
  cases found with
  | none => exact .call (.elsewhere trivial) fun rows => .ret (hfound.cons trivial)
  | some id => exact (aside_getDomain _ hfound id).bind fun u domain hu => .ret hu

theorem aside_resolveUsername (t : Trace sig) (ht : Untouched a t) (username : String) :
    Aside policy a t (resolveUsername username) := by
  unfold resolveUsername
  split
  · exact .ret ht
  · refine (aside_getByName t ht _).bind fun u domain hu => ?_
    cases domain with
    | none => exact .ret hu
    | some domain =>
      refine aside_exec (by simp [Elsewhere]) hu fun found hfound => ?_
      cases found with
      | none => exact .ret hfound
      | some id => exact (aside_get _ hfound id).bind fun v account hv => .ret hv

theorem aside_anyLocked (t : Trace sig) (ht : Untouched a t) (keys : List ThrottleKey)
    (hkeys : ∀ key ∈ keys, key ≠ .account a) :
    Aside policy a t (Throttle.anyLocked policy keys) := by
  induction keys generalizing t with
  | nil => exact .ret ht
  | cons key rest ih =>
    have hkey := hkeys key mem_cons_self
    have hcmd : Elsewhere a (.ttlGet key) := hkey
    refine .call (.elsewhere hcmd) fun n => ?_
    exact (ih _ (ht.cons hcmd) fun k hk => hkeys k (mem_cons_of_mem _ hk)).bind
      fun u others hu => .ret hu

theorem obeys_bumps (ht : P t)
    (hP : ∀ u x, Elsewhere a x.1 → P u → P (x :: u)) (keys : List ThrottleKey)
    (hkeys : ∀ key ∈ keys, key ≠ .account a) :
    Obeys (Step policy a) (fun _ => True) (fun t _ => P t) t
      (keys.forM (Throttle.bump policy)) := by
  induction keys generalizing t with
  | nil => exact .ret ht
  | cons key rest ih =>
    have hkey := hkeys key mem_cons_self
    refine .call (.elsewhere hkey) fun n => .call (.elsewhere hkey) fun _ => ?_
    refine ih ?_ fun k hk => hkeys k (mem_cons_of_mem _ hk)
    exact hP _ _ hkey (hP _ _ hkey ht)

theorem obeys_removes (ht : P t) (keys : List ThrottleKey)
    (hP : ∀ u, ∀ key ∈ keys, P u → P (⟨.ttlRemove key, ()⟩ :: u)) :
    Obeys (Step policy a) (fun _ => True) (fun t _ => P t) t
      (keys.forM fun key => exec (.ttlRemove key)) := by
  induction keys generalizing t with
  | nil => exact .ret ht
  | cons key rest ih =>
    have hstep : Step policy a t (.ttlRemove key) := by
      by_cases hkey : key = .account a
      · rw [hkey]
        exact .reset
      · exact .elsewhere hkey
    refine .call hstep fun _ => ih (hP _ key mem_cons_self ht) fun u k hk => ?_
    exact hP u k (mem_cons_of_mem _ hk)

theorem ipKeys_ne (ip : Option String) : ∀ key ∈
    (ip.map ThrottleKey.ip).toList, key ≠ .account a := by
  intro key hkey
  obtain ⟨x, -, rfl⟩ := Option.map_eq_some_iff.1 (Option.mem_toList.1 hkey)
  simp

theorem keysOf_ne (ip : Option String) {b : ℕ} (hb : b ≠ a) :
    ∀ key ∈ Throttle.keysOf ip (some b), key ≠ .account a := by
  intro key hkey
  rcases mem_append.1 hkey with hkey | hkey
  · exact ipKeys_ne ip key hkey
  · rw [mem_singleton.1 hkey]
    exact fun heq => hb (ThrottleKey.account.inj heq)

theorem obeys_isLocked (ht : Untouched a t) (ip : Option String) :
    Obeys (Step policy a) (fun _ => True)
      (fun t locked => ¬ Recorded a t ∧ (locked = false → Passed policy a t)) t
      (Throttle.isLocked policy ip (some a)) := by
  have check {t : Trace sig} (ht : Untouched a t) (n : Option ℕ) :
      ¬ Recorded a (⟨.ttlGet (.account a), n⟩ :: t) := by
    rintro ⟨m, ttl, hmem⟩
    exact ht.not_recorded ⟨m, ttl, (mem_cons.1 hmem).resolve_left (by simp)⟩
  cases ip with
  | none =>
    refine .call (.check ht.not_checked ht.not_recorded) fun n => .ret ⟨check ht n, fun hlow => ?_⟩
    exact ⟨n, mem_cons_self, by simpa using hlow⟩
  | some ip =>
    have hcmd : Elsewhere a (.ttlGet (.ip ip)) := by simp [Elsewhere]
    refine .call (.elsewhere hcmd) fun m => ?_
    have hu := ht.cons (x := ⟨.ttlGet (.ip ip), m⟩) hcmd
    refine .call (.check hu.not_checked hu.not_recorded) fun n => .ret ⟨check hu n, fun hlow => ?_⟩
    simp only [Bool.or_eq_false_iff, decide_eq_false_iff_not, not_le, Bool.or_false] at hlow
    exact ⟨n, mem_cons_self, hlow.2⟩

/-- What is known of a login that tries the credentials. -/
structure Trying (policy : ThrottlePolicy) (a : ℕ) (t : Trace sig) : Prop where
  passed : Passed policy a t
  unrecorded : ¬ Recorded a t
  verified : Verified a t

theorem Trying.cons (hx : Elsewhere a x.1)
    (h : Trying policy a t) : Trying policy a (x :: t) where
  passed := by
    obtain ⟨n, hmem, hlow⟩ := h.passed
    exact ⟨n, mem_cons_of_mem _ hmem, hlow⟩
  unrecorded := by
    rintro ⟨n, ttl, hmem⟩
    rcases mem_cons.1 hmem with rfl | hmem
    · exact hx rfl
    · exact h.unrecorded ⟨n, ttl, hmem⟩
  verified := by
    obtain ⟨found, hmem⟩ := h.verified
    exact ⟨found, mem_cons_of_mem _ hmem⟩

theorem obeys_recordFailure (ht : Trying policy a t) (ip : Option String) :
    Obeys (Step policy a) (fun _ => True) (fun t _ => Verified a t) t
      (Throttle.recordFailure policy ip (some a)) := by
  unfold Throttle.recordFailure
  rw [show Throttle.keysOf ip (some a) = (ip.map ThrottleKey.ip).toList ++ [.account a] from rfl,
    forM_eq_forM, forM_append]
  refine (obeys_bumps ht (fun u x hx hu => hu.cons hx) _ (ipKeys_ne ip)).bind fun u _ hu => ?_
  refine .call (.count hu.passed hu.unrecorded) fun n => ?_
  refine .call (.record rfl hu.passed hu.unrecorded) fun _ => .ret ?_
  obtain ⟨found, hmem⟩ := hu.verified
  exact ⟨found, mem_cons_of_mem _ (mem_cons_of_mem _ hmem)⟩

theorem obeys_verifyLogin (hpassed : Passed policy a t)
    (hunrecorded : ¬ Recorded a t) (ip : Option String) (haccount : account.id = a)
    (secret : String) (purpose : LoginPurpose) :
    Obeys (Step policy a) (fun _ => True) (fun t _ => Verified a t) t
      (verifyLogin secrets policy ip account secret purpose) := by
  subst haccount
  refine .call (.verify hpassed) fun found => ?_
  have htrying : Trying policy account.id (⟨.get (.credentials account.id), found⟩ :: t) := by
    obtain ⟨n, hmem, hlow⟩ := hpassed
    refine ⟨⟨n, mem_cons_of_mem _ hmem, hlow⟩, ?_, found, mem_cons_self⟩
    rintro ⟨m, ttl, hmem⟩
    exact hunrecorded ⟨m, ttl, (mem_cons.1 hmem).resolve_left (by simp)⟩
  change Obeys _ _ _ _ (checked (authenticate secrets account (found.getD []) purpose secret) >>= _)
  cases authenticate secrets account (found.getD []) purpose secret with
  | error e => exact .fail trivial
  | ok outcome =>
    cases outcome with
    | denied =>
      exact (obeys_recordFailure htrying ip).bind fun u _ hu => .ret hu
    | granted by_ =>
      refine (obeys_removes htrying.verified _ fun u key _ hu => ?_).bind fun u _ hu => .ret hu
      obtain ⟨r, hmem⟩ := hu
      exact ⟨r, mem_cons_of_mem _ hmem⟩

theorem aside_verifyLogin (ht : Untouched a t) (ip : Option String)
    (haccount : account.id ≠ a) (secret : String) (purpose : LoginPurpose) :
    Aside policy a t (verifyLogin secrets policy ip account secret purpose) := by
  have hkeys := keysOf_ne ip haccount
  have hlist : Elsewhere a (.get (.credentials account.id)) :=
    fun heq => haccount (Loc.credentials.inj heq)
  refine .call (.elsewhere hlist) fun found => ?_
  change Obeys _ _ _ _ (checked (authenticate secrets account (found.getD []) purpose secret) >>= _)
  cases authenticate secrets account (found.getD []) purpose secret with
  | error e => exact .fail trivial
  | ok outcome =>
    cases outcome with
    | denied =>
      exact (obeys_bumps (P := Untouched a) (ht.cons hlist) (fun u x hx hu => hu.cons hx) _
        hkeys).bind fun u _ hu => .ret hu
    | granted by_ =>
      exact (obeys_removes (P := Untouched a) (ht.cons hlist) _ fun u key hkey hu =>
        hu.cons (hkeys key hkey)).bind fun u _ hu => .ret hu

theorem obeys_attemptLogin (ip : Option String) (username secret : String)
    (purpose : LoginPurpose) :
    Obeys (Step policy a) (fun _ => True)
      (fun t attempt => Checked a t → Verified a t ∨ attempt = .throttled) []
      (attemptLogin secrets policy ip username secret purpose) := by
  refine (aside_anyLocked [] (by simp [Untouched]) _ ?_).bind fun t locked ht => ?_
  · exact fun key hkey => ipKeys_ne ip key (by simpa [Throttle.keysOf] using hkey)
  cases locked with
  | true => exact .ret fun hchecked => absurd hchecked ht.not_checked
  | false =>
    refine (aside_resolveUsername t ht username).bind fun t found ht => ?_
    cases found with
    | none =>
      refine (obeys_bumps (P := Untouched a) ht (fun u x hx hu => hu.cons hx) _ ?_).bind
        fun u _ hu => .ret fun hchecked => absurd hchecked hu.not_checked
      exact fun key hkey => ipKeys_ne ip key (by simpa [Throttle.keysOf] using hkey)
    | some account =>
      by_cases haccount : account.id = a
      · subst haccount
        refine (obeys_isLocked ht ip).bind fun u locked ⟨hunrecorded, hlow⟩ => ?_
        cases locked with
        | true => exact .ret fun _ => .inr rfl
        | false =>
          exact (obeys_verifyLogin secrets (hlow rfl) hunrecorded ip rfl secret purpose).mono
            fun v _ hv _ => .inl hv
      · refine (aside_anyLocked t ht _ (keysOf_ne ip haccount)).bind fun u locked hu => ?_
        cases locked with
        | true => exact .ret fun hchecked => absurd hchecked hu.not_checked
        | false =>
          exact (aside_verifyLogin secrets hu ip haccount secret purpose).mono
            fun v _ hv hchecked => absurd hchecked hv.not_checked

theorem obeys_prog (policy : ThrottlePolicy) (a : ℕ) (client : LoginClient) :
    Obeys (Step policy a) (fun _ => True)
      (fun t reply => Checked a t → Verified a t ∨ reply = some .throttled) []
      (prog secrets policy client) := by
  cases client with
  | login request =>
    exact (obeys_attemptLogin secrets request.ip request.username request.secret
      request.purpose).bind fun t attempt h => .ret fun hchecked => (h hchecked).imp_right
        (congrArg some)
  | clock millis =>
    refine .call (.elsewhere trivial) fun _ => .ret ?_
    rintro ⟨n, hmem⟩
    exact absurd (mem_singleton.1 hmem) (by simp)

/-! ## Runs -/

variable {ι : Type} [DecidableEq ι]

/-- The login has passed the check and not counted its failure. -/
def InFlight (policy : ThrottlePolicy) (a : ℕ) (t : Trace sig) : Prop :=
  Passed policy a t ∧ ¬ Recorded a t

/-- No login succeeds, and the count does not expire. -/
def Undisturbed (a : ℕ) (e : Event sig World ι) (_ : Past ι) : Prop :=
  e.cmd ≠ .ttlRemove (.account a) ∧
    (e.cmd = .ttlGet (.account a) → ∀ entry ∈ e.before.throttle.lookup (.account a),
      entry.isExpired e.before.clock = false)

/-- A login makes its check when every other login that was let through has
counted its failure. -/
def Alone (policy : ThrottlePolicy) (a : ℕ) (e : Event sig World ι)
    (past : Past ι) : Prop :=
  e.cmd = .ttlGet (.account a) → ¬ Checked a (traceOf e.who past) →
    ∀ x ∈ past, ¬ InFlight policy a (traceOf x.who past)

def countReply (a : ℕ) (p : ℕ → Bool) : Access → Bool
  | ⟨.ttlGet key, n⟩ => key == .account a && p (n.getD 0)
  | _ => false

theorem exists_countReply {p : ℕ → Bool} :
    (∃ x ∈ t, countReply a p x) ↔
      ∃ n, (⟨.ttlGet (.account a), n⟩ : Access) ∈ t ∧ p (n.getD 0) := by
  constructor
  · rintro ⟨⟨c, r⟩, hmem, hx⟩
    unfold countReply at hx
    split at hx
    next key n heq =>
      cases heq
      obtain ⟨hkey, hp⟩ := Bool.and_eq_true_iff.1 hx
      obtain rfl := eq_of_beq hkey
      exact ⟨n, hmem, hp⟩
    next => cases hx
  · rintro ⟨n, hmem, hp⟩
    exact ⟨_, hmem, by simp [countReply, hp]⟩

instance (t : Trace sig) : Decidable (Checked a t) :=
  decidable_of_iff (∃ x ∈ t, countReply a (fun _ => true) x)
    (exists_countReply.trans (by simp [Checked]))

instance (t : Trace sig) : Decidable (Passed policy a t) :=
  decidable_of_iff (∃ x ∈ t, countReply a (fun n => n < policy.maxFailures) x)
    (exists_countReply.trans (by simp [Passed]))

def setsCount (a : ℕ) : Cmd → Bool
  | .ttlSet key _ _ => key == .account a
  | _ => false

instance (t : Trace sig) : Decidable (Recorded a t) := by
  refine decidable_of_iff (∃ x ∈ t, setsCount a x.1) ⟨?_, ?_⟩
  · rintro ⟨⟨c, r⟩, hmem, hx⟩
    dsimp only at hx
    unfold setsCount at hx
    split at hx
    next key n ttl =>
      obtain rfl := eq_of_beq hx
      exact ⟨n, ttl, hmem⟩
    next => cases hx
  · rintro ⟨n, ttl, hmem⟩
    exact ⟨_, hmem, by simp [setsCount]⟩

def ttlGetKey : Cmd → Option ThrottleKey
  | .ttlGet key => some key
  | _ => none

def ttlRemoveKey : Cmd → Option ThrottleKey
  | .ttlRemove key => some key
  | _ => none

instance (c : Cmd) : Decidable (c = .ttlGet (.account a)) :=
  decidable_of_iff (ttlGetKey c = some (.account a)) (by cases c <;> simp [ttlGetKey])

instance (c : Cmd) : Decidable (c = .ttlRemove (.account a)) :=
  decidable_of_iff (ttlRemoveKey c = some (.account a)) (by cases c <;> simp [ttlRemoveKey])

instance (e : Event sig World ι) (past : Past ι) :
    Decidable (Undisturbed a e past) := by
  unfold Undisturbed
  infer_instance

instance (e : Event sig World ι) (past : Past ι) :
    Decidable (Alone policy a e past) := by
  unfold Alone InFlight
  infer_instance

def countOf (a : ℕ) (w : World) : ℕ := w.throttle.valueAt (.account a)

theorem countOf_elsewhere (digest : Digest) (hc : Elsewhere a c)
    (w : World) : countOf a (machine digest c w).2 = countOf a w := by
  cases c with
  | ttlGet key => exact TtlStore.valueAt_get_of_ne hc
  | ttlSet key value ttl => exact TtlStore.valueAt_set_of_ne hc value ttl
  | ttlRemove key => exact TtlStore.valueAt_remove_of_ne hc
  | batchConditional asserts ops =>
    simp only [machine]
    split <;> rfl
  | _ => rfl

theorem passed_cons (h : Passed policy a t) :
    Passed policy a (x :: t) := by
  obtain ⟨n, hmem, hlow⟩ := h
  exact ⟨n, mem_cons_of_mem _ hmem, hlow⟩

theorem recorded_cons_iff (hx : ∀ n ttl, x ≠ ⟨.ttlSet (.account a) n ttl, ()⟩) : Recorded a
    (x :: t) ↔ Recorded a t := by
  constructor
  · rintro ⟨n, ttl, hmem⟩
    exact ⟨n, ttl, (mem_cons.1 hmem).resolve_left fun heq => hx n ttl heq.symm⟩
  · rintro ⟨n, ttl, hmem⟩
    exact ⟨n, ttl, mem_cons_of_mem _ hmem⟩

theorem passed_cons_iff (hx : ∀ n, x ≠ ⟨.ttlGet (.account a), n⟩) : Passed policy a
    (x :: t) ↔ Passed policy a t := by
  refine ⟨?_, passed_cons⟩
  rintro ⟨n, hmem, hlow⟩
  exact ⟨n, (mem_cons.1 hmem).resolve_left fun heq => hx n heq.symm, hlow⟩

theorem verified_cons (hx : ∀ found, x ≠ ⟨.get (.credentials a), found⟩) (h : Verified a (x :: t)) :
    Verified a t := by
  obtain ⟨found, hmem⟩ := h
  exact ⟨found, (mem_cons.1 hmem).resolve_left fun heq => hx found heq.symm⟩

/-- What holds between the steps of the logins. -/
structure Counting (policy : ThrottlePolicy) (a : ℕ) (past : Past ι) (w : World) :
    Prop where
  single : ∀ i j, InFlight policy a (traceOf i past) → InFlight policy a (traceOf j past) → i = j
  low : ∀ i, InFlight policy a (traceOf i past) → countOf a w < policy.maxFailures
  current : ∀ i n t, InFlight policy a (traceOf i past) →
    traceOf i past = ⟨.ttlGet (.account a), n⟩ :: t → n.getD 0 = countOf a w
  recorded : ∀ L : List ι, L.Nodup → (∀ i ∈ L, Recorded a (traceOf i past)) →
    L.length ≤ countOf a w
  bounded : ∀ i, Recorded a (traceOf i past) → countOf a w ≤ policy.maxFailures
  passed : ∀ i, Verified a (traceOf i past) → Passed policy a (traceOf i past)

theorem counting_nil (policy : ThrottlePolicy) (a : ℕ) (w : World) :
    Counting policy a ([] : Past ι) w where
  single i _ hi := by simp [InFlight, Passed, traceOf] at hi
  low i hi := by simp [InFlight, Passed, traceOf] at hi
  current i _ _ hi := by simp [InFlight, Passed, traceOf] at hi
  recorded L _ hmem := by
    cases L with
    | nil => exact Nat.zero_le _
    | cons i L =>
      obtain ⟨n, ttl, hn⟩ := hmem i mem_cons_self
      exact absurd hn (by simp [traceOf])
  bounded i hi := by simp [Recorded, traceOf] at hi
  passed i hi := by simp [Verified, traceOf] at hi

section Counting
variable {past : Past ι} {e : Event sig World ι} {w : World}

theorem of_trace_cons (e : Event sig World ι) (past : Past ι)
    {P : Trace sig → Prop} (h : P (⟨e.cmd, e.res⟩ :: traceOf e.who past) → P (traceOf e.who past)) (i : ι)
    (hi : P (traceOf i (e :: past))) : P (traceOf i past) := by
  by_cases hwho : e.who = i
  · subst hwho
    rw [traceOf_cons_self rfl] at hi
    exact h hi
  · rwa [traceOf_cons_of_ne hwho] at hi

theorem Counting.quiet (h : Counting policy a past e.before)
    (hcount : countOf a w = countOf a e.before)
    (hflight : ∀ i, InFlight policy a (traceOf i (e :: past)) → InFlight policy a (traceOf i past))
    (hcurrent : ∀ n t, InFlight policy a (traceOf e.who (e :: past)) →
      traceOf e.who (e :: past) = ⟨.ttlGet (.account a), n⟩ :: t → n.getD 0 = countOf a e.before)
    (hrecorded : ∀ i, Recorded a (traceOf i (e :: past)) → Recorded a (traceOf i past))
    (hpassed : Verified a (traceOf e.who (e :: past)) → Passed policy a (traceOf e.who (e :: past))) :
    Counting policy a (e :: past) w where
  single i j hi hj := h.single i j (hflight i hi) (hflight j hj)
  low i hi := hcount ▸ h.low i (hflight i hi)
  current i n t hi ht := by
    rw [hcount]
    by_cases hwho : e.who = i
    · subst hwho
      exact hcurrent n t hi ht
    · rw [traceOf_cons_of_ne hwho] at hi ht
      exact h.current i n t hi ht
  recorded L hL hmem := hcount ▸ h.recorded L hL fun i hi => hrecorded i (hmem i hi)
  bounded i hi := hcount ▸ h.bounded i (hrecorded i hi)
  passed i hi := by
    by_cases hwho : e.who = i
    · subst hwho
      exact hpassed hi
    · rw [traceOf_cons_of_ne hwho] at hi ⊢
      exact h.passed i hi

theorem Counting.passed_step (h : Counting policy a past e.before)
    (hcmd : e.cmd ≠ .get (.credentials a)) (i : ι) (hi : Verified a (traceOf i (e :: past))) :
    Passed policy a (traceOf i (e :: past)) := by
  have hold := h.passed i (of_trace_cons e past (verified_cons fun found heq =>
    hcmd (congrArg Sigma.fst heq)) i hi)
  by_cases hwho : e.who = i
  · subst hwho
    rw [traceOf_cons_self rfl]
    exact passed_cons hold
  · rwa [traceOf_cons_of_ne hwho]

variable {digest : Digest}

omit [DecidableEq ι] in
theorem countOf_read (hcmd : e.cmd = .ttlGet (.account a))
    (hres : e.res = (machine digest e.cmd e.before).1)
    (hlive : Undisturbed a e past) :
    countOf a (machine digest e.cmd e.before).2 = countOf a e.before ∧
      ∀ (n : Option ℕ), (⟨e.cmd, e.res⟩ : Access) = ⟨.ttlGet (.account a), n⟩ →
        n.getD 0 = countOf a e.before := by
  obtain ⟨hvalue, hsame⟩ := TtlStore.get_of_live (hlive.2 hcmd)
  obtain ⟨who, before, cmd, res⟩ := e
  dsimp only at hcmd
  subst hcmd
  refine ⟨congrArg (TtlStore.valueAt · _) hsame, fun n hn => ?_⟩
  cases hn
  exact (congrArg (Option.getD · 0) hres).trans hvalue

theorem Counting.check (h : Counting policy a past e.before) (hcmd : e.cmd = .ttlGet (.account a))
    (hres : e.res = (machine digest e.cmd e.before).1) (hlive : Undisturbed a e past)
    (halone : Alone policy a e past) (hfirst : ¬ Checked a (traceOf e.who past)) :
    Counting policy a (e :: past) (machine digest e.cmd e.before).2 := by
  obtain ⟨hcount, hread⟩ := countOf_read hcmd hres hlive
  -- whoever is in flight now has just been let through
  have honly (i : ι) (hi : InFlight policy a (traceOf i (e :: past))) : e.who = i := by
    by_contra hwho
    rw [traceOf_cons_of_ne hwho] at hi
    obtain ⟨n, hmem, -⟩ := hi.1
    obtain ⟨x, hx, rfl, -⟩ := mem_traceOf.1 hmem
    exact halone hcmd hfirst x hx hi
  have hrecorded := of_trace_cons e past (recorded_cons_iff (a := a)
    fun n ttl heq => by simpa [hcmd] using congrArg Sigma.fst heq).1
  refine ⟨fun i j hi hj => (honly i hi).symm.trans (honly j hj), fun i hi => ?_,
    fun i n t hi ht => ?_, fun L hL hmem => ?_, fun i hi => ?_, fun i hi => ?_⟩
  · obtain rfl := honly i hi
    rw [traceOf_cons_self rfl] at hi
    obtain ⟨n, hmem, hlow⟩ := hi.1
    rcases mem_cons.1 hmem with hhead | hmem
    · rw [hcount, ← hread n hhead.symm]
      exact hlow
    · exact absurd ⟨n, hmem⟩ hfirst
  · obtain rfl := honly i hi
    rw [traceOf_cons_self rfl] at ht
    rw [hcount]
    exact hread n (cons.inj ht).1
  · rw [hcount]
    exact h.recorded L hL fun i hi => hrecorded i (hmem i hi)
  · rw [hcount]
    exact h.bounded i (hrecorded i hi)
  · exact h.passed_step (by simp [hcmd]) i hi

theorem Counting.count (h : Counting policy a past e.before) (hcmd : e.cmd = .ttlGet (.account a))
    (hres : e.res = (machine digest e.cmd e.before).1) (hlive : Undisturbed a e past)
    (hpassed : Passed policy a (traceOf e.who past)) :
    Counting policy a (e :: past) (machine digest e.cmd e.before).2 := by
  obtain ⟨hcount, hread⟩ := countOf_read hcmd hres hlive
  have hrecorded {t : Trace sig} : Recorded a (⟨e.cmd, e.res⟩ :: t) ↔ Recorded a t :=
    recorded_cons_iff fun n ttl heq => by simpa [hcmd] using congrArg Sigma.fst heq
  refine h.quiet hcount (of_trace_cons e past fun hi => ⟨hpassed, hrecorded.not.1 hi.2⟩)
    (fun n t _ ht => ?_) (of_trace_cons e past hrecorded.1) fun _ => ?_
  · rw [traceOf_cons_self rfl] at ht
    exact hread n (cons.inj ht).1
  · rw [traceOf_cons_self rfl]
    exact passed_cons hpassed

theorem Counting.still (h : Counting policy a past e.before)
    (hcount : countOf a w = countOf a e.before)
    (hget : ∀ n, (⟨e.cmd, e.res⟩ : Access) ≠ ⟨.ttlGet (.account a), n⟩)
    (hset : ∀ n ttl, (⟨e.cmd, e.res⟩ : Access) ≠ ⟨.ttlSet (.account a) n ttl, ()⟩)
    (hpassed : Verified a (⟨e.cmd, e.res⟩ :: traceOf e.who past) →
      Passed policy a (traceOf e.who past)) : Counting policy a (e :: past) w := by
  refine h.quiet hcount (of_trace_cons e past (And.imp (passed_cons_iff hget).1
    (not_congr (recorded_cons_iff hset)).1)) (fun n t _ ht => ?_) (of_trace_cons e past (recorded_cons_iff hset).1) fun hv => ?_
  · rw [traceOf_cons_self rfl] at ht
    exact absurd (cons.inj ht).1 (hget n)
  · rw [traceOf_cons_self rfl] at hv ⊢
    exact passed_cons (hpassed hv)

theorem Counting.verify (h : Counting policy a past e.before) (hcmd : e.cmd = .get (.credentials a))
    (hpassed : Passed policy a (traceOf e.who past)) :
    Counting policy a (e :: past) (machine digest e.cmd e.before).2 := by
  have hne {c : Cmd} (hc : .get (.credentials a) ≠ c) (r : c.Res) :
      (⟨e.cmd, e.res⟩ : Access) ≠ ⟨c, r⟩ :=
    fun heq => hc (hcmd.symm.trans (congrArg Sigma.fst heq))
  refine h.still ?_ (hne (by simp))
    (fun n ttl => hne (c := .ttlSet _ n ttl) (by simp) ()) fun _ => hpassed
  rw [hcmd]
  rfl

theorem Counting.elsewhere (h : Counting policy a past e.before) (hcmd : Elsewhere a e.cmd) :
    Counting policy a (e :: past) (machine digest e.cmd e.before).2 := by
  have hne {c : Cmd} (hc : ¬ Elsewhere a c) (r : c.Res) : (⟨e.cmd, e.res⟩ : Access) ≠ ⟨c, r⟩ :=
    fun heq => hc ((show e.cmd = c from congrArg Sigma.fst heq) ▸ hcmd)
  exact h.still (countOf_elsewhere digest hcmd e.before) (hne (by simp [Elsewhere]))
    (fun n ttl => hne (c := .ttlSet _ n ttl) (by simp [Elsewhere]) ())
    fun hv => h.passed _ (verified_cons (hne (by simp [Elsewhere])) hv)

theorem Counting.record (h : Counting policy a past e.before) (hmax : policy.maxFailures < 2 ^ 32)
    {n : Option ℕ} {t : Trace sig}
    (hcmd : e.cmd = .ttlSet (.account a) (Throttle.next (n.getD 0)) policy.window)
    (htrace : traceOf e.who past = ⟨.ttlGet (.account a), n⟩ :: t) (hpassed : Passed policy a t)
    (hunrecorded : ¬ Recorded a t) :
    Counting policy a (e :: past) (machine digest e.cmd e.before).2 := by
  have hflight : InFlight policy a (traceOf e.who past) := by
    rw [htrace]
    exact ⟨passed_cons hpassed, (recorded_cons_iff (by simp)).not.2 hunrecorded⟩
  have hlow := h.low e.who hflight
  have hcount : countOf a (machine digest e.cmd e.before).2 = countOf a e.before + 1 := by
    rw [hcmd, h.current e.who n t hflight htrace]
    refine (TtlStore.valueAt_set_self _ _).trans (min_eq_left ?_)
    omega
  have hlanded : Recorded a (⟨e.cmd, e.res⟩ :: traceOf e.who past) := by
    obtain ⟨who, before, cmd, res⟩ := e
    subst hcmd
    exact ⟨_, _, mem_cons_self⟩
  -- the login has landed, and it was the only one in flight
  have hnone (i : ι) : ¬ InFlight policy a (traceOf i (e :: past)) := by
    intro hi
    by_cases hwho : e.who = i
    · subst hwho
      rw [traceOf_cons_self rfl] at hi
      exact hi.2 hlanded
    · rw [traceOf_cons_of_ne hwho] at hi
      exact hwho (h.single e.who i hflight hi)
  refine ⟨fun i _ hi => absurd hi (hnone i), fun i hi => absurd hi (hnone i),
    fun i _ _ hi => absurd hi (hnone i), fun L hL hmem => ?_, fun _ _ => ?_, fun i hi => ?_⟩
  · have hrest : (L.erase e.who).length ≤ countOf a e.before := by
      refine h.recorded _ (hL.erase _) fun i hi => ?_
      obtain ⟨hne, hiL⟩ := hL.mem_erase_iff.1 hi
      have hrec := hmem i hiL
      rwa [traceOf_cons_of_ne hne.symm] at hrec
    rw [length_erase] at hrest
    split at hrest <;> omega
  · omega
  · exact h.passed_step (by simp [hcmd]) i hi

theorem Counting.step (h : Counting policy a past e.before) (hmax : policy.maxFailures < 2 ^ 32)
    (hstep : Step policy a (traceOf e.who past) e.cmd)
    (hres : e.res = (machine digest e.cmd e.before).1) (hlive : Undisturbed a e past)
    (halone : Alone policy a e past) :
    Counting policy a (e :: past) (machine digest e.cmd e.before).2 := by
  obtain ⟨who, before, cmd, res⟩ := e
  cases hstep with
  | elsewhere hc => exact h.elsewhere hc
  | check hfirst _ => exact h.check rfl hres hlive halone hfirst
  | verify hpassed => exact h.verify rfl hpassed
  | count hpassed _ => exact h.count rfl hres hlive hpassed
  | record htrace hpassed hunrecorded => exact h.record hmax rfl htrace hpassed hunrecorded
  | reset => exact absurd rfl hlive.1

theorem Counting.verified_le (h : Counting policy a past w) {L : List ι} (hL : L.Nodup)
    (hverified : ∀ i ∈ L, Verified a (traceOf i past)) : L.length ≤ policy.maxFailures := by
  by_cases hflight : ∃ i ∈ L, InFlight policy a (traceOf i past)
  · obtain ⟨i, hi, hin⟩ := hflight
    have hrest : (L.erase i).length ≤ countOf a w := by
      refine h.recorded _ (hL.erase i) fun j hj => ?_
      obtain ⟨hne, hjL⟩ := hL.mem_erase_iff.1 hj
      by_contra hnot
      exact hne (h.single j i ⟨h.passed j (hverified j hjL), hnot⟩ hin)
    have hlow := h.low i hin
    rw [length_erase_of_mem hi] at hrest
    omega
  · have hrecorded (i : ι) (hi : i ∈ L) : Recorded a (traceOf i past) := by
      by_contra hnot
      exact hflight ⟨i, hi, h.passed i (hverified i hi), hnot⟩
    have hle := h.recorded L hL hrecorded
    cases L with
    | nil => exact Nat.zero_le _
    | cons i L => exact hle.trans (h.bounded i (hrecorded i mem_cons_self))

end Counting

/-- At most as many logins as may fail have tried the credentials of the account;
whoever else has made the check is told to wait. -/
structure Bounded (policy : ThrottlePolicy) (a : ℕ)
    (p : Pool sig World ι (Option LoginAttempt)) : Prop where
  verified : ∀ L : List ι, L.Nodup → (∀ i ∈ L, Verified a (traceOf i p.past)) →
    L.length ≤ policy.maxFailures
  throttled : ∀ i reply, p.thread i = .ret reply → Checked a (traceOf i p.past) →
    Verified a (traceOf i p.past) ∨ reply = some .throttled

variable (policy a)

def runOf (digest : Digest) (clients : ι → LoginClient) (w : World)
    (turns : List ι) : Pool sig World ι (Option LoginAttempt) :=
  (Pool.start w fun i => prog secrets policy (clients i)).run (machine digest) turns

theorem bounded_of_alone (digest : Bytes → Mail.BlobHash) (hmax : policy.maxFailures < 2 ^ 32)
    (clients : ι → LoginClient) (w : World) (turns : List ι)
    (hlive : Always (Undisturbed a) (runOf secrets policy digest clients w turns).past)
    (halone : Always (Alone policy a) (runOf secrets policy digest clients w turns).past) :
    Bounded policy a (runOf secrets policy digest clients w turns) := by
  have hrun := Pool.obeying_run (machine digest) w
    (fun i => obeys_prog secrets policy a (clients i)) turns
  change Pool.Obeying _ _ _ _ _ (runOf secrets policy digest clients w turns) at hrun
  generalize runOf secrets policy digest clients w turns = p at hlive halone hrun
  have hcounting : Counting policy a p.past p.state := by
    refine hrun.history.invariant (machine digest) (I := Counting policy a)
      (hrun.events.and (hlive.and halone)) (counting_nil policy a w) ?_
    intro e t hres _ hC _ h
    exact h.step hmax hC.1 hres hC.2.1 hC.2.2
  refine ⟨fun L hL hverified => hcounting.verified_le hL hverified, fun i reply hret => ?_⟩
  exact hrun.returned (machine digest) hret

/-! ## Two guesses at once -/

def sampleAccount : Account := .plain 7 "user"
def sampleDomain : Domain := ⟨1, "example.com", [], true, none, [], .unverified, 0⟩

def sampleDirectory : World :=
  { World.empty (.new 0) 0 with
    records := ((((∅ : Records).insert (.domainName "example.com") 1).insert (.domain 1)
      sampleDomain).insert (.accountAddress 1 "user") 7).insert (.account 7) sampleAccount |>.insert
      (.credentials 7) [.primaryPassword ⟨"password", 0⟩] }

def noSecrets : Secrets :=
  ⟨fun _ _ => .ok false, fun _ => .ok [], fun _ _ _ => .ok false, fun _ _ => .ok false⟩

def strictPolicy : ThrottlePolicy := .new 1 60000

def guesses : Bool → LoginClient :=
  fun _ => .login ⟨none, "user@example.com", "guess", .mail⟩

def guessesRun (turns : List Bool) : Pool sig World Bool (Option LoginAttempt) :=
  runOf noSecrets strictPolicy (fun _ => []) guesses sampleDirectory turns

def guessesAtOnce : List Bool := List.replicate 5 false ++ List.replicate 5 true ++ [false, true]

theorem guessesAtOnce_not_bounded :
    Always (Undisturbed 7) (guessesRun guessesAtOnce).past ∧
      ¬ Bounded strictPolicy 7 (guessesRun guessesAtOnce) := by
  refine ⟨by decide +kernel, fun h => ?_⟩
  have htwo := h.verified [false, true] (by decide) fun i _ => ?_
  · exact absurd htwo (by decide)
  · cases i <;> exact ⟨_, List.mem_cons_self⟩

def guessesInTurn : List Bool := List.replicate 8 false ++ List.replicate 8 true

theorem guessesInTurn_bounded :
    Bounded strictPolicy 7 (guessesRun guessesInTurn) ∧
      (guessesRun guessesInTurn).thread true = .ret (some .throttled) :=
  ⟨bounded_of_alone noSecrets strictPolicy 7 (fun _ => []) (by decide) guesses sampleDirectory
    guessesInTurn (by decide +kernel) (by decide +kernel), rfl⟩

end LoginRuns
end IrixMail.Directory
