import IrixMail.Http.Auth

/-!
# Guessing the second factor

Logins and codes for any usernames come in any interleaving of their steps. A
code that was given an attempt is tried when its call comes to check it. A login
that begins a challenge forgets the attempts of the one before, so the number of
codes tried within the lifetime of a challenge is bounded by the attempts of one
challenge only if a challenge begins no sooner than a lifetime after the last code.
-/

namespace IrixMail.Http
open Library Prog Store Directory List

inductive AuthCall
  | login (ip : Option String) (body : LoginBody) (token : String)
  | totp (body : TotpBody) (token : String)
  | clock (millis : ℕ)

def AuthCall.prog (state : AppState) : AuthCall → Action (Option Response)
  | login ip body token => do
    let response ← Http.login state ip body token
    pure (some response)
  | totp body token => do
    let response ← Http.totp state body token
    pure (some response)
  | clock millis => do
    exec (.tick millis)
    pure none

namespace ChallengeRuns

section Runs
variable {ι : Type} [DecidableEq ι]

def takes (key : String) : Access → Bool
  | ⟨.takeAttempt username, some _⟩ => challengeKey username == key
  | _ => false

def begins (key : String) : Cmd → Bool
  | .beginChallenge username _ _ => challengeKey username == key
  | _ => false

/-- The time is read for `totp_flow::complete`, and for nothing before it. -/
def checks : Cmd → Bool
  | .now => true
  | _ => false

def misses : Access → Bool
  | ⟨.get (.account _), none⟩ => true
  | _ => false

/-- The call has an attempt and has yet to try its code. -/
def Trying (key : String) (t : Trace sig) : Prop :=
  t.any (takes key) ∧ ¬ t.any (fun x => checks x.1) ∧ ¬ t.any misses

instance (key : String) (t : Trace sig) : Decidable (Trying key t) := by
  unfold Trying
  infer_instance

/-- The steps at which a code for the username comes to `totp_flow::complete`. -/
def tried (key : String) : Past ι → Past ι
  | [] => []
  | e :: past =>
    if checks e.cmd ∧ Trying key (traceOf e.who past) then e :: tried key past else tried key past

/-- At most as many codes are tried within the lifetime of a challenge as a
challenge has attempts. -/
def Bounded (key : String) (past : Past ι) : Prop :=
  ∀ s, (tried key past).countP (fun e => s ≤ e.before.clock ∧ e.before.clock < s + pendingTotpTtl) ≤
    pendingTotpAttempts

/-- A challenge begins when no code for the username was tried for a lifetime,
and none is about to be. -/
def Rested (key : String) (e : Event sig World ι) (past : Past ι) : Prop :=
  begins key e.cmd → (∀ x ∈ tried key past, x.before.clock + pendingTotpTtl ≤ e.before.clock) ∧
    ∀ x ∈ past, ¬ Trying key (traceOf x.who past)

instance (key : String) (e : Event sig World ι) (past : Past ι) :
    Decidable (Rested key e past) := by
  unfold Rested
  infer_instance

/-! ### What a step does -/

theorem left_of_begins (digest : Digest) {key : String} {c : Cmd} (hc : begins key c)
    (w : World) : (machine digest c w).2.pending.left key = pendingTotpAttempts := by
  cases c with
  | beginChallenge username accountId kind =>
    obtain rfl : challengeKey username = key := eq_of_beq hc
    simp [machine, PendingChallenges.left, PendingChallenges.begin]
  | _ => cases hc

theorem left_step (digest : Digest) {key : String} {c : Cmd}
    (hc : begins key c = false) (w : World) :
    (machine digest c w).2.pending.left key +
      (if takes key ⟨c, (machine digest c w).1⟩ then 1 else 0) ≤ w.pending.left key := by
  cases c with
  | takeAttempt username =>
    have h := w.pending.left_takeAttempt w.clock username key
    cases hgranted : (w.pending.takeAttempt w.clock username).1 with
    | none => simpa [machine, takes, hgranted] using h
    | some challenge => simpa [machine, takes, hgranted] using h
  | beginChallenge username accountId kind =>
    have h := PendingChallenges.left_insert_of_ne (beq_eq_false_iff_ne.1 hc) w.pending
    simp [machine, takes, PendingChallenges.begin, h]
  | completeChallenge username => exact w.pending.left_erase key (challengeKey username)
  | batchConditional asserts ops =>
    simp only [machine]
    split <;> exact le_rfl
  | _ => exact le_rfl

theorem clock_le_machine (digest : Digest) (c : Cmd) (w : World) :
    w.clock ≤ (machine digest c w).2.clock := by
  cases c with
  | tick millis => exact Nat.le_add_right _ _
  | batchConditional asserts ops =>
    simp only [machine]
    split <;> exact le_rfl
  | _ => exact le_rfl

/-- A call that is trying after a step was trying before it, or has just been
given its attempt. -/
theorem Trying.of_cons {key : String} {x : Access} {t : Trace sig}
    (h : Trying key (x :: t)) : checks x.1 = false ∧ (takes key x = false → Trying key t) := by
  obtain ⟨htook, hchecked, hmissed⟩ := h
  simp only [any_cons, Bool.or_eq_true, not_or, Bool.not_eq_true] at htook hchecked hmissed
  refine ⟨hchecked.1, fun hx => ⟨htook.resolve_left (by simp [hx]), ?_, ?_⟩⟩
  · simp [hchecked.2]
  · simp [hmissed.2]

theorem not_trying_nil (key : String) : ¬ Trying key [] := fun h => by simp [Trying] at h

theorem takes_of_begins {key : String} {x : Access} (h : begins key x.1) :
    takes key x = false := by
  obtain ⟨c, r⟩ := x
  cases c with
  | beginChallenge username accountId kind => rfl
  | _ => cases h

theorem takes_of_checks {key : String} {x : Access} (h : checks x.1) :
    takes key x = false := by
  obtain ⟨c, r⟩ := x
  cases c with
  | now => rfl
  | _ => cases h

/-! ### Since the challenge began -/

def takenSince (key : String) : Past ι → ℕ
  | [] => 0
  | e :: past => if begins key e.cmd then 0
    else takenSince key past + if takes key ⟨e.cmd, e.res⟩ then 1 else 0

def triedSince (key : String) : Past ι → ℕ
  | [] => 0
  | e :: past => if begins key e.cmd then 0
    else triedSince key past + if checks e.cmd ∧ Trying key (traceOf e.who past) then 1 else 0

structure Guarded (key : String) (past : Past ι) (w : World) : Prop where
  spent : takenSince key past + w.pending.left key ≤ pendingTotpAttempts
  trying : ∀ L : List ι, L.Nodup → (∀ i ∈ L, Trying key (traceOf i past)) →
    triedSince key past + L.length ≤ takenSince key past
  recent : ∀ s, w.clock < s + pendingTotpTtl →
    (tried key past).countP (fun e => s ≤ e.before.clock) ≤ triedSince key past
  bounded : Bounded key past

theorem guarded_nil {key : String} {w : World} (hw : w.pending.left key ≤ pendingTotpAttempts) :
    Guarded key ([] : Past ι) w where
  spent := (Nat.zero_add _).trans_le hw
  trying L _ hL := by
    cases L with
    | nil => exact le_rfl
    | cons i L => exact absurd (hL i mem_cons_self) (not_trying_nil key)
  recent _ _ := le_rfl
  bounded _ := Nat.zero_le _

section Step
variable {key : String} {past : Past ι} {e : Event sig World ι}
  {digest : Digest}

theorem trying_before {i : ι} (h : Trying key (traceOf i (e :: past)))
    (htakes : takes key ⟨e.cmd, e.res⟩ = false) : Trying key (traceOf i past) := by
  by_cases hwho : e.who = i
  · rw [traceOf_cons_self hwho] at h
    exact h.of_cons.2 htakes
  · rwa [traceOf_cons_of_ne hwho] at h

theorem mem_of_trying {i : ι} (h : Trying key (traceOf i past)) : ∃ x ∈ past, x.who = i := by
  obtain ⟨x, hx, -⟩ := any_eq_true.1 h.1
  obtain ⟨x, hmem, hwho, -⟩ := mem_traceOf.1 hx
  exact ⟨x, hmem, hwho⟩

theorem Guarded.begin (h : Guarded key past e.before) (hbegins : begins key e.cmd)
    (hrested : Rested key e past) : Guarded key (e :: past) (machine digest e.cmd e.before).2 := by
  obtain ⟨hold, hnone⟩ := hrested hbegins
  have htakes : takes key ⟨e.cmd, e.res⟩ = false := takes_of_begins hbegins
  have hchecks : checks e.cmd = false := by
    cases hcmd : e.cmd with
    | now =>
      rw [hcmd] at hbegins
      cases hbegins
    | _ => rfl
  have htried : tried key (e :: past) = tried key past := by simp [tried, hchecks]
  refine ⟨?_, fun L _ hL => ?_, fun s hs => ?_, ?_⟩
  · rw [left_of_begins digest hbegins]
    simp [takenSince, hbegins]
  · cases L with
    | nil => simp [triedSince, hbegins]
    | cons i L =>
      have htrying := trying_before (hL i mem_cons_self) htakes
      obtain ⟨x, hx, rfl⟩ := mem_of_trying htrying
      exact absurd htrying (hnone x hx)
  · rw [htried, countP_eq_zero.2 fun x hx => ?_]
    · exact Nat.zero_le _
    · have hx := hold x hx
      have hclock := clock_le_machine digest e.cmd e.before
      simp only [decide_eq_true_eq]
      omega
  · rw [Bounded, htried]
    exact h.bounded

theorem Guarded.try (h : Guarded key past e.before) (hbegins : begins key e.cmd = false)
    (hchecks : checks e.cmd) (htrying : Trying key (traceOf e.who past)) :
    Guarded key (e :: past) (machine digest e.cmd e.before).2 := by
  have htakes : takes key ⟨e.cmd, e.res⟩ = false := takes_of_checks hchecks
  have htried : tried key (e :: past) = e :: tried key past := by simp [tried, hchecks, htrying]
  have htaken : takenSince key (e :: past) = takenSince key past := by
    simp [takenSince, hbegins, htakes]
  have hsince : triedSince key (e :: past) = triedSince key past + 1 := by
    simp [triedSince, hbegins, hchecks, htrying]
  have hleft := left_step digest hbegins e.before
  have hclock := clock_le_machine digest e.cmd e.before
  have hspent := h.spent
  have hone := h.trying [e.who] (nodup_singleton _) (by simpa using htrying)
  refine ⟨?_, fun L hL hmem => ?_, fun s hs => ?_, fun s => ?_⟩
  · omega
  · have hwho : e.who ∉ L := fun hi => by
      have hafter := hmem e.who hi
      rw [traceOf_cons_self rfl] at hafter
      simp [hafter.of_cons.1] at hchecks
    have hall : ∀ i ∈ e.who :: L, Trying key (traceOf i past) :=
      forall_mem_cons.2 ⟨htrying, fun i hi => trying_before (hmem i hi) htakes⟩
    have hmore := h.trying (e.who :: L) (nodup_cons.2 ⟨hwho, hL⟩) hall
    rw [length_cons] at hmore
    omega
  · have hrecent := h.recent s (by omega)
    rw [htried, countP_cons]
    split <;> omega
  · rw [htried, countP_cons]
    split
    next hin =>
      simp only [decide_eq_true_eq] at hin
      have hrecent := h.recent s hin.2
      have hmono : (tried key past).countP
          (fun e => s ≤ e.before.clock ∧ e.before.clock < s + pendingTotpTtl) ≤
          (tried key past).countP fun e => s ≤ e.before.clock := by
        refine countP_mono_left fun x _ hx => ?_
        simp only [decide_eq_true_eq] at hx ⊢
        exact hx.1
      rw [length_singleton] at hone
      omega
    next => exact h.bounded s

theorem Guarded.other (h : Guarded key past e.before) (hbegins : begins key e.cmd = false)
    (hother : ¬ (checks e.cmd ∧ Trying key (traceOf e.who past)))
    (hres : e.res = (machine digest e.cmd e.before).1) :
    Guarded key (e :: past) (machine digest e.cmd e.before).2 := by
  have htried : tried key (e :: past) = tried key past := by simp [tried, hother]
  have hsince : triedSince key (e :: past) = triedSince key past := by
    simp [triedSince, hbegins, hother]
  have hleft := left_step digest hbegins e.before
  rw [← hres] at hleft
  have hclock := clock_le_machine digest e.cmd e.before
  have hspent := h.spent
  have htaken : takenSince key (e :: past) =
      takenSince key past + if takes key ⟨e.cmd, e.res⟩ then 1 else 0 := by
    simp [takenSince, hbegins]
  refine ⟨?_, fun L hL hmem => ?_, fun s hs => ?_, ?_⟩
  · omega
  · rw [hsince, htaken]
    cases htakes : takes key ⟨e.cmd, e.res⟩ with
    | false =>
      have hall := h.trying L hL fun i hi => trying_before (hmem i hi) htakes
      simpa using hall
    | true =>
      have herase := h.trying (L.erase e.who) (hL.erase _) fun i hi => by
        have hne := (hL.mem_erase_iff.1 hi).1
        have htrying := hmem i (mem_of_mem_erase hi)
        rwa [traceOf_cons_of_ne (Ne.symm hne)] at htrying
      have hlength := length_erase (a := e.who) (l := L)
      simp only [if_true]
      split at hlength <;> omega
  · rw [htried, hsince]
    exact h.recent s (by omega)
  · rw [Bounded, htried]
    exact h.bounded

theorem Guarded.step (h : Guarded key past e.before) (hrested : Rested key e past)
    (hres : e.res = (machine digest e.cmd e.before).1) :
    Guarded key (e :: past) (machine digest e.cmd e.before).2 := by
  cases hbegins : begins key e.cmd with
  | true => exact h.begin hbegins hrested
  | false =>
    by_cases htries : checks e.cmd ∧ Trying key (traceOf e.who past)
    · exact h.try hbegins htries.1 htries.2
    · exact h.other hbegins htries hres

end Step

variable (state : AppState) (digest : Digest)

def runOf (calls : ι → AuthCall) (w : World) (turns : List ι) :
    Pool sig World ι (Option Response) :=
  (Pool.start w fun i => (calls i).prog state).run (machine digest) turns

/-- When a challenge for the username begins no sooner than a lifetime after the
last code, at most as many codes are tried in any lifetime as a challenge has
attempts. -/
theorem bounded_of_rested (key : String) (calls : ι → AuthCall) {w : World}
    (hw : w.pending.left key ≤ pendingTotpAttempts) (turns : List ι)
    (hrested : Always (Rested key) (runOf state digest calls w turns).past) :
    Bounded key (runOf state digest calls w turns).past := by
  have h : Guarded key (runOf state digest calls w turns).past
      (runOf state digest calls w turns).state :=
    (Pool.history_run (machine digest) w _ turns).invariant _ (I := Guarded key) hrested
      (guarded_nil hw) fun e past hres _ hC _ hpast => hpast.step hC hres
  exact h.bounded

/-! ### Two runs -/

def enrolled : World :=
  { World.empty (.new 0) 0 with
    records := (((((∅ : Records).insert (.domainName "example.com") 1).insert (.domain 1)
      ⟨1, "example.com", [], true, none, [], .unverified, 0⟩).insert (.accountAddress 1 "user") 7).insert
      (.account 7) (.plain 7 "user")).insert (.credentials 7)
        [.primaryPassword ⟨"password", 0⟩, .totp ⟨⟨[], []⟩, true, [], 0⟩] }

def lenient : AppState where
  secrets := ⟨fun secret hash => .ok (secret == hash), fun _ => .ok [], fun _ _ _ => .ok false,
    fun _ _ => .ok false⟩
  policy := .default
  tokenHash := fun _ => []
  recoveryAdmin := none

def username : String := "user@example.com"

def guessing : ℕ → AuthCall
  | 0 => .login none ⟨.webmail, username, "password"⟩ ""
  | 1 => .login none ⟨.webmail, username, "password"⟩ ""
  | 2 => .clock pendingTotpTtl
  | _ => .totp ⟨username, "000000"⟩ ""

def inTurn (calls : List ℕ) : List ℕ := calls.flatMap (List.replicate 9)

def guessingRun (calls : List ℕ) : Pool sig World ℕ (Option Response) :=
  runOf lenient (fun _ => []) guessing enrolled (inTurn calls)

def responseTo (calls : List ℕ) (i : ℕ) : Option Response :=
  match (guessingRun calls).thread i with
  | .ret response => response
  | _ => none

theorem secondLogin_not_bounded :
    (∀ i ∈ [3, 4, 5, 6, 7, 8], responseTo [0, 3, 4, 5, 6, 7, 1, 8] i = some invalidCode) ∧
    ¬ Bounded username (guessingRun [0, 3, 4, 5, 6, 7, 1, 8]).past := by
  refine ⟨by decide +kernel, fun h => ?_⟩
  exact absurd (h 0) (by decide +kernel)

theorem laterLogin_bounded :
    Bounded username (guessingRun [0, 3, 4, 5, 6, 7, 2, 1, 8]).past :=
  bounded_of_rested lenient (fun _ => []) username guessing (by decide +kernel) _ (by decide +kernel)

end Runs
end ChallengeRuns
end IrixMail.Http
