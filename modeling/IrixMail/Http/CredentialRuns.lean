import IrixMail.Http.Auth
import IrixMail.Library.Serial
import IrixMail.Store.Histories

/-!
# Concurrent changes of the credentials of an account

Each change reads the list of credentials and writes an edited list back. The
login with a second factor reads it twice: once to check the code, once more when
it writes the factor back. As long as every write finds the list that its call
has read, the calls that succeed are in sequence: no change undoes another, and
what one of them has taken away is gone.
-/

namespace IrixMail.Http
open Library Prog Store Directory Serial CredentialRegistry List

inductive CredentialCall
  | setPrimaryPassword (hash : String)
  | addAppPassword (appPassword : AppPassword)
  | revokeAppPassword (id : ℕ)
  | setTotp (totp : Totp)
  | clearTotp
  | totpLogin (body : TotpBody) (token : String)

inductive CredentialReply
  | done
  | revoked (found : Bool)
  | response (response : Response)
  deriving DecidableEq

variable {cs cs' : List Credential}

namespace CredentialCall
variable (state : AppState) (a : ℕ)

def prog : CredentialCall → Action CredentialReply
  | setPrimaryPassword hash => do
    CredentialRegistry.setPrimaryPassword a hash
    pure .done
  | addAppPassword appPassword => do
    CredentialRegistry.addAppPassword a appPassword
    pure .done
  | revokeAppPassword id => do
    let found ← CredentialRegistry.revokeAppPassword a id
    pure (.revoked found)
  | setTotp totp => do
    CredentialRegistry.setTotp a totp
    pure .done
  | clearTotp => do
    CredentialRegistry.clearTotp a
    pure .done
  | totpLogin body token => do
    let response ← totp state body token
    pure (.response response)

/-! ## One call on its own -/

def firstReply {β : Type} (f : Access → Option β) (t : Trace sig) : Option β :=
  t.reverse.findSome? f

variable {t : Trace sig} {new : List Credential}

theorem firstReply_append {β : Type} {f : Access → Option β} {b : β}
    (h : firstReply f t = some b) (u : Trace sig) : firstReply f (u ++ t) = some b := by
  unfold firstReply at h ⊢
  rw [reverse_append, findSome?_append, h, Option.some_or]

def stampOf : Trace sig → Option ℕ := firstReply fun
  | ⟨.generate, id⟩ => some (IdGenerator.timestampOf id * 1000)
  | _ => none

def timeOf : Trace sig → Option ℕ := firstReply fun
  | ⟨.now, now⟩ => some now
  | _ => none

def accountOf : Trace sig → Option Account := firstReply fun
  | ⟨.get (.account _), found⟩ => found
  | _ => none

def loginEdit (code : String) (now : ℕ) (credentials : List Credential) :
    Option (List Credential) :=
  match TotpFlow.complete state.secrets credentials code now with
  | .ok (.granted, stored) =>
    match TotpFlow.consumed stored with
    | some totp => some (withTotp totp credentials)
    | none => some credentials
  | _ => none

/-- What a call that succeeds makes of the list when nothing comes between its
steps, with the time stamps and the account that it got. -/
def edit (t : Trace sig) : CredentialCall → List Credential → Option (List Credential)
  | setPrimaryPassword hash, credentials =>
    (stampOf t).map fun stamp => withPrimaryPassword hash stamp credentials
  | addAppPassword appPassword, credentials => some (credentials ++ [.appPassword appPassword])
  | revokeAppPassword id, credentials =>
    if (withoutAppPassword id credentials).length = credentials.length then none
    else some (withoutAppPassword id credentials)
  | setTotp totp, credentials => some (withTotp totp credentials)
  | clearTotp, credentials => some (withoutTotp credentials)
  | totpLogin body _, credentials =>
    match accountOf t, timeOf t with
    | some account, some now =>
      if account.id = a then loginEdit state (trim body.code) now credentials
      else some credentials
    | _, _ => none

variable {call : CredentialCall}

theorem edit_append (h : call.edit state a t cs = some cs') (u : Trace sig) :
    call.edit state a (u ++ t) cs = some cs' := by
  cases call with
  | setPrimaryPassword hash =>
    obtain ⟨stamp, hstamp, rfl⟩ := Option.map_eq_some_iff.1 h
    exact Option.map_eq_some_iff.2 ⟨stamp, firstReply_append hstamp u, rfl⟩
  | totpLogin body token =>
    simp only [edit] at h ⊢
    split at h
    next account now haccount hnow =>
      rw [show accountOf (u ++ t) = some account from firstReply_append haccount u,
        show timeOf (u ++ t) = some now from firstReply_append hnow u]
      exact h
    next => cases h
  | _ => exact h

/-! ## The steps of a call among others -/

def Succeeds : CredentialReply → Prop
  | .done => True
  | .revoked found => found = true
  | .response (.session _ _) => True
  | .response _ => False

def Wrote (t : Trace sig) : Prop := ∃ x ∈ t, ∃ op ∈ x.1.writes, op.loc = .credentials a

/-- A call writes the list at most once: what it makes of the list that it has
read, provided that all its reads agree. -/
inductive Step (call : CredentialCall) (t : Trace sig) : Cmd → Prop
  | elsewhere {c : Cmd} : (∀ op ∈ c.writes, op.loc ≠ .credentials a) → Step call t c
  | write {new : List Credential} : ¬ Wrote a t →
      (∀ cs, (∀ found, Got (.credentials a) found t → found.getD [] = cs) →
        call.edit state a t cs = some new) →
      Step call t (.batch [writeOp a new])

def Kept (call : CredentialCall) (t : Trace sig) : Prop :=
  (∃ found, Got (.credentials a) found t ∧
    call.edit state a t (found.getD []) = some (found.getD [])) ∨
  (t ≠ [] ∧ ∀ cs, call.edit state a t cs = some cs)

structure Returned (call : CredentialCall) (t : Trace sig) (reply : CredentialReply) : Prop where
  succeeds : Wrote a t → Succeeds reply
  kept : Succeeds reply → ¬ Wrote a t → Kept state a call t

theorem not_wrote_cons {a : ℕ} {x : Access}
    (hx : ∀ op ∈ x.1.writes, op.loc ≠ .credentials a) (h : ¬ Wrote a t) : ¬ Wrote a (x :: t) := by
  rintro ⟨y, hy, op, hop, hloc⟩
  rcases mem_cons.1 hy with rfl | hy
  · exact hx op hop hloc
  · exact h ⟨y, hy, op, hop, hloc⟩

theorem loc_writeOp (a : ℕ) (cs : List Credential) : (writeOp a cs).loc = .credentials a := by
  unfold writeOp
  split <;> rfl

theorem wrote_write (a : ℕ) (cs : List Credential) (t : Trace sig) :
    Wrote a (⟨.batch [writeOp a cs], ()⟩ :: t) :=
  ⟨_, mem_cons_self, _, mem_singleton_self _, loc_writeOp a cs⟩

variable {reply : CredentialReply}

theorem returned_of_wrote (hwrote : Wrote a t)
    (h : Succeeds reply) : Returned state a call t reply :=
  ⟨fun _ => h, fun _ hnot => absurd hwrote hnot⟩

variable {state a}

theorem Step.of_read (found : Option (List Credential))
    (hwrote : ¬ Wrote a t) (hgot : Got (.credentials a) found t)
    (hedit : call.edit state a t (found.getD []) = some new) :
    Step state a call t (.batch [writeOp a new]) :=
  .write hwrote fun cs hcs => by rw [← hcs found hgot]; exact hedit

variable (state a)

theorem elsewhere_get (l : Loc) :
    Step state a call t (.get l) := .elsewhere (by simp [Cmd.writes])

theorem not_wrote_get (found : Option (List Credential)) :
    ¬ Wrote a [⟨.get (.credentials a), found⟩] := by
  simp [Wrote, Cmd.writes]

theorem obeys_setPrimaryPassword (hash : String) :
    Obeys (Step state a (.setPrimaryPassword hash)) (fun _ => False)
      (fun t _ => Wrote a t) [] (CredentialRegistry.setPrimaryPassword a hash) := by
  refine .call (elsewhere_get state a _) fun found => ?_
  refine .call (.elsewhere (by simp [Cmd.writes])) fun id => ?_
  refine .call (.of_read found ?_ ?_ rfl) fun _ => .ret (wrote_write a _ _)
  · simp [Wrote, Cmd.writes]
  · exact mem_cons_of_mem _ mem_cons_self

theorem obeys_write {found : Option (List Credential)}
    (hedit : call.edit state a [⟨.get (.credentials a), found⟩] (found.getD []) = some new) :
    Obeys (Step state a call) (fun _ => False) (fun t _ => Wrote a t)
      [⟨.get (.credentials a), found⟩] (write a new) :=
  .call (.of_read found (not_wrote_get a found) mem_cons_self hedit) fun _ =>
    .ret (wrote_write a _ _)

theorem obeys_revokeAppPassword (id : ℕ) :
    Obeys (Step state a (.revokeAppPassword id)) (fun _ => False)
      (fun t found => Wrote a t ↔ found = true) []
      (CredentialRegistry.revokeAppPassword a id) := by
  refine .call (elsewhere_get state a _) fun found => ?_
  change Obeys _ _ _ _ (if _ then _ else _)
  split
  next hsame => exact .ret (by simpa using not_wrote_get a found)
  next hless =>
    have hedit : edit state a [⟨.get (.credentials a), found⟩] (.revokeAppPassword id)
        (found.getD []) = some (withoutAppPassword id (found.getD [])) := if_neg hless
    exact (obeys_write state a hedit).bind fun _ _ h => .ret (iff_of_true h rfl)

theorem obeys_clearTotp :
    Obeys (Step state a .clearTotp) (fun _ => False)
      (fun t _ => ¬ Wrote a t → Kept state a .clearTotp t) [] (CredentialRegistry.clearTotp a) := by
  refine .call (elsewhere_get state a _) fun found => ?_
  change Obeys _ _ _ _ (if _ then _ else _)
  split
  next hsame =>
    have hall : withoutTotp (found.getD []) = found.getD [] :=
      filter_sublist.eq_of_length hsame
    exact .ret fun _ => .inl ⟨found, mem_cons_self, congrArg some hall⟩
  next hless =>
    exact (obeys_write state a rfl).mono fun _ _ h hnot => absurd h hnot

/-! ## The login with a second factor -/

variable {state a}

theorem Kept.append (h : Kept state a call t)
    (u : Trace sig) : Kept state a call (u ++ t) := by
  rcases h with ⟨found, hgot, hedit⟩ | ⟨hne, hedit⟩
  · exact .inl ⟨found, mem_append_right u hgot, edit_append state a hedit u⟩
  · exact .inr ⟨append_ne_nil_of_right_ne_nil u hne, fun cs => edit_append state a (hedit cs) u⟩

theorem Wrote.append (h : Wrote a t) (u : Trace sig) : Wrote a (u ++ t) := by
  obtain ⟨x, hx, hop⟩ := h
  exact ⟨x, mem_append_right u hx, hop⟩

variable (state a)

theorem obeys_finish (body : TotpBody) (token : String) (account : Account) (kind : SessionKind)
    (hkept : ¬ Wrote a t → Kept state a call t) :
    Obeys (Step state a call) (fun _ => False)
      (fun t response => Returned state a call t (.response response)) t
      (totpGranted.finish state body token account kind) := by
  refine .call (.elsewhere (by simp [Cmd.writes])) fun _ => ?_
  refine .call (.elsewhere (by simp [Cmd.writes])) fun now => ?_
  refine .call (.elsewhere (by simp [Cmd.writes])) fun _ => .ret ?_
  exact ⟨fun _ => trivial, fun _ hnot => (hkept fun hw => hnot (hw.append [_, _, _])).append [_, _, _]⟩

section Login
variable (body : TotpBody) (token : String) (account : Account) (kind : SessionKind)

/-- What a login has behind it when it has got its code granted. -/
structure Granted (t : Trace sig) (stored : List Credential) : Prop where
  resolved : accountOf t = some account
  unwritten : ¬ Wrote a t
  checked : ∃ found now, Got (.credentials account.id) found t ∧ timeOf t = some now ∧
    TotpFlow.complete state.secrets (found.getD []) (trim body.code) now = .ok (.granted, stored)

variable {state a body account}

variable {stored : List Credential} {t : Trace sig}

theorem Granted.edit_of_ne (h : Granted state a body account t stored) (hne : account.id ≠ a)
    (cs : List Credential) :
    (CredentialCall.totpLogin body token).edit state a t cs = some cs := by
  obtain ⟨found, now, -, hnow, -⟩ := h.checked
  simp only [edit, h.resolved, hnow, if_neg hne]

theorem Granted.edit_eq (h : Granted state a body account t stored) (haccount : account.id = a)
    (hcs : ∀ found, Got (.credentials a) found t → found.getD [] = cs) :
    (CredentialCall.totpLogin body token).edit state a t cs =
      match TotpFlow.consumed stored with
      | some totp => some (withTotp totp cs)
      | none => some cs := by
  obtain ⟨found, now, hgot, hnow, hcomplete⟩ := h.checked
  subst haccount
  obtain rfl := hcs found hgot
  simp only [edit, h.resolved, hnow, if_pos, loginEdit, hcomplete]

theorem Granted.cons_get (h : Granted state a body account t stored)
    (found : Option (List Credential)) :
    Granted state a body account (⟨.get (.credentials account.id), found⟩ :: t) stored := by
  obtain ⟨first, now, hgot, hnow, hcomplete⟩ := h.checked
  refine ⟨firstReply_append h.resolved [_], not_wrote_cons (by simp [Cmd.writes]) h.unwritten,
    first, now, mem_cons_of_mem _ hgot, firstReply_append hnow [_], hcomplete⟩

variable (state a body account)

theorem obeys_totpGranted (h : Granted state a body account t stored) :
    Obeys (Step state a (.totpLogin body token)) (fun _ => False)
      (fun t response => Returned state a (.totpLogin body token) t (.response response)) t
      (totpGranted state body token account kind stored) := by
  unfold totpGranted
  split
  next totp hconsumed =>
    refine .call (elsewhere_get state a _) fun found => ?_
    have hread := h.cons_get found
    by_cases haccount : account.id = a
    · subst haccount
      refine .call (.write hread.unwritten fun cs hcs => ?_) fun _ => ?_
      · rw [hread.edit_eq token rfl hcs, hconsumed, hcs found mem_cons_self]
      · exact obeys_finish state account.id body token account kind fun hnot =>
          absurd (wrote_write account.id _ _) hnot
    · refine .call (.elsewhere (by simpa [Cmd.writes, loc_writeOp] using haccount)) fun _ => ?_
      refine obeys_finish state a body token account kind fun _ => .inr ⟨by simp, fun cs => ?_⟩
      exact edit_append state a (hread.edit_of_ne token haccount cs) [_]
  next hconsumed =>
    refine obeys_finish state a body token account kind fun _ => ?_
    by_cases haccount : account.id = a
    · obtain ⟨found, now, hgot, hnow, hcomplete⟩ := h.checked
      subst haccount
      refine .inl ⟨found, hgot, ?_⟩
      simp only [edit, h.resolved, hnow, if_pos, loginEdit, hcomplete, hconsumed]
    · refine .inr ⟨?_, h.edit_of_ne token haccount⟩
      obtain ⟨found, now, hgot, -⟩ := h.checked
      exact ne_nil_of_mem hgot

theorem obeys_totp :
    Obeys (Step state a (.totpLogin body token)) (fun _ => False)
      (fun t response => Returned state a (.totpLogin body token) t (.response response)) []
      (totp state body token) := by
  have hrefused {t : Trace sig} (h : ¬ Wrote a t) (status : ℕ) (message : String) :
      Returned state a (.totpLogin body token) t (.response (.error status message)) :=
    ⟨fun hw => absurd hw h, nofun⟩
  change Obeys _ _ _ _ (if _ then _ else _)
  split
  · exact .ret (hrefused (by simp [Wrote]) _ _)
  refine .call (.elsewhere (by simp [Cmd.writes])) fun taken => ?_
  cases taken with
  | none => exact .ret (hrefused (by simp [Wrote, Cmd.writes]) _ _)
  | some entry =>
    refine .call (elsewhere_get state a _) fun found => ?_
    cases found with
    | none => exact .ret (hrefused (by simp [Wrote, Cmd.writes]) _ _)
    | some account =>
      refine .call (elsewhere_get state a _) fun listed => ?_
      refine .call (.elsewhere (by simp [Cmd.writes])) fun now => ?_
      have hunwritten : ¬ Wrote a [⟨.now, now⟩, ⟨.get (.credentials account.id), listed⟩,
          ⟨.get (.account entry.1), some account⟩, ⟨.takeAttempt body.username, some entry⟩] := by
        simp [Wrote, Cmd.writes]
      change Obeys _ _ _ _ (totpOutcome state body token account entry.2 _)
      cases hcomplete : TotpFlow.complete state.secrets (listed.getD []) (trim body.code) now with
      | error e => exact .ret (hrefused hunwritten _ _)
      | ok outcome =>
        obtain ⟨outcome, stored⟩ := outcome
        cases outcome with
        | denied => exact .ret (hrefused hunwritten _ _)
        | granted =>
          refine obeys_totpGranted state a body token account entry.2 ⟨rfl, hunwritten, ?_⟩
          exact ⟨listed, now, mem_cons_of_mem _ mem_cons_self, rfl, hcomplete⟩

end Login
theorem obeys_prog (call : CredentialCall) :
    Obeys (Step state a call) (fun _ => False) (Returned state a call) [] (call.prog state a) := by
  cases call with
  | setPrimaryPassword hash =>
    exact (obeys_setPrimaryPassword state a hash).bind fun _ _ h =>
      .ret (returned_of_wrote state a h trivial)
  | addAppPassword appPassword =>
    exact .call (elsewhere_get state a _) fun _ => (obeys_write state a rfl).bind fun _ _ h =>
      .ret (returned_of_wrote state a h trivial)
  | revokeAppPassword id =>
    exact (obeys_revokeAppPassword state a id).bind fun _ found h =>
      .ret ⟨h.1, fun hs hnot => absurd (h.2 hs) hnot⟩
  | setTotp totp =>
    exact .call (elsewhere_get state a _) fun _ => (obeys_write state a rfl).bind fun _ _ h =>
      .ret (returned_of_wrote state a h trivial)
  | clearTotp =>
    exact (obeys_clearTotp state a).bind fun _ _ h => .ret ⟨fun _ => trivial, fun _ => h⟩
  | totpLogin body token => exact (obeys_totp state a body token).bind fun _ _ h => .ret h

end CredentialCall

/-! ## Runs -/

section Runs
variable {ι : Type} [DecidableEq ι] (state : AppState) (digest : Digest) (a : ℕ)

def credentialsOf (w : World) : List Credential := (w.records.lookup (.credentials a)).getD []

def FindsList (e : Event sig World ι) (past : Past ι) : Prop :=
  isBatch e.cmd → Unchanged (· = .credentials a) e past

instance (e : Event sig World ι) (past : Past ι) :
    Decidable (FindsList a e past) :=
  inferInstanceAs (Decidable (isBatch e.cmd → Unchanged (· = .credentials a) e past))

def WritesList (e : Event sig World ι) : Prop :=
  ∃ op ∈ e.cmd.writes, op.loc = .credentials a

theorem credentialsOf_write (new : List Credential) (w : World) :
    credentialsOf a (machine digest (.batch [writeOp a new]) w).2 = new := by
  unfold credentialsOf
  rw [records_machine, Records.lookup_batch]
  change (WriteOp.effect (.credentials a) (writeOp a new) _).getD [] = new
  unfold writeOp
  split
  next hempty =>
    rw [WriteOp.effect_delete_self]
    exact (isEmpty_iff.1 hempty).symm
  next => rw [WriteOp.effect_set_self]; rfl

variable {state digest a}

theorem atOnce_of_step {calls : ι → CredentialCall} {e : Event sig World ι}
    {past post : Past ι}
    (hstep : (calls e.who).Step state a (traceOf e.who past) e.cmd) (hfinds : FindsList a e past) :
    AtOnce (machine digest) (credentialsOf a)
      (fun i => (calls i).edit state a (traceOf i (post ++ e :: past))) (WritesList a) e past := by
  have hwrite : WritesList a e → ∃ new, e.cmd = .batch [writeOp a new] ∧
      ¬ CredentialCall.Wrote a (traceOf e.who past) ∧
      ∀ cs, (∀ found, Got (.credentials a) found (traceOf e.who past) → found.getD [] = cs) →
        (calls e.who).edit state a (traceOf e.who past) cs = some new := by
    rintro ⟨op, hop, hloc⟩
    obtain ⟨who, before, cmd, res⟩ := e
    cases hstep with
    | elsewhere h => exact absurd hloc (h op hop)
    | write hunwritten hedit => exact ⟨_, rfl, hunwritten, hedit⟩
  refine ⟨fun heff => ?_, fun hnot => ?_, fun heff x hx hxw hwho => ?_⟩
  · obtain ⟨new, hcmd, -, hedit⟩ := hwrite heff
    have htrace : traceOf e.who (post ++ e :: past) =
        (traceOf e.who (post ++ [e])) ++ traceOf e.who past := by simp [traceOf]
    have hnew := hedit (credentialsOf a e.before) fun found hgot =>
      congrArg (Option.getD · []) ((hfinds (by rw [hcmd]; rfl)).lookup_eq rfl hgot).symm
    rw [hcmd, credentialsOf_write, htrace]
    exact CredentialCall.edit_append state a hnew _
  · have hsame : (machine digest e.cmd e.before).2.records.lookup (.credentials a) =
        e.before.records.lookup (.credentials a) :=
      lookup_machine_of_ne digest fun op hop hloc => hnot ⟨op, Cmd.writes_of_written hop, hloc⟩
    exact congrArg (Option.getD · []) hsame
  · obtain ⟨new, -, hunwritten, -⟩ := hwrite heff
    obtain ⟨op, hop, hloc⟩ := hxw
    exact hunwritten ⟨⟨x.cmd, x.res⟩, mem_traceOf.2 ⟨x, hx, hwho, rfl⟩, op, hop, hloc⟩

/-! ## What a sequence of edits does -/

inductive Source (call : CredentialCall) (cs : List Credential) : Credential → Prop
  | old {c : Credential} : c ∈ cs → Source call cs c
  | totp (totp : Totp) : Source call cs (.totp totp)
  | app {appPassword : AppPassword} : call = .addAppPassword appPassword →
      Source call cs (.appPassword appPassword)
  | primary {record : PrimaryPassword} : call = .setPrimaryPassword record.hash →
      Source call cs (.primaryPassword record)

variable {c : Credential} {call : CredentialCall} {t : Trace sig}

theorem source_of_append {ds : List Credential} {d : Credential}
    (hds : ∀ c ∈ ds, c ∈ cs) (hd : Source call cs d) (hc : c ∈ ds ++ [d]) : Source call cs c := by
  rcases mem_append.1 hc with hc | hc
  · exact .old (hds c hc)
  · rw [mem_singleton.1 hc]
    exact hd

theorem source_of_edit (h : call.edit state a t cs = some cs') (hc : c ∈ cs') : Source call cs c := by
  have filtered {p : Credential → Bool} {c : Credential} : c ∈ cs.filter p → c ∈ cs :=
    mem_of_mem_filter
  cases call with
  | setPrimaryPassword hash =>
    obtain ⟨stamp, -, rfl⟩ := Option.map_eq_some_iff.1 h
    exact source_of_append (fun _ => filtered) (.primary rfl) hc
  | addAppPassword appPassword =>
    cases h
    exact source_of_append (fun _ => id) (.app rfl) hc
  | revokeAppPassword id =>
    simp only [CredentialCall.edit] at h
    split at h
    · cases h
    · cases h
      exact .old (filtered hc)
  | setTotp totp =>
    cases h
    exact source_of_append (fun _ => filtered) (.totp totp) hc
  | clearTotp =>
    cases h
    exact .old (filtered hc)
  | totpLogin body token =>
    simp only [CredentialCall.edit, CredentialCall.loginEdit] at h
    repeat' split at h
    all_goals cases h
    · exact source_of_append (fun _ => filtered) (.totp _) hc
    · exact .old hc
    · exact .old hc

theorem edit_revoked {id : ℕ}
    (hadd : ∀ appPassword, call = .addAppPassword appPassword → appPassword.id ≠ id)
    (h : call.edit state a t cs = some cs') (hcs : ∀ c ∈ cs, c.isAppPassword id = false) :
    ∀ c ∈ cs', c.isAppPassword id = false := by
  intro c hc
  cases source_of_edit h hc with
  | old hold => exact hcs c hold
  | totp => rfl
  | app hcall => exact beq_false_of_ne (hadd _ hcall)
  | primary => rfl

/-- No call but one that replaces the factor adds a recovery code, and a login
with a recovery code takes it away. -/
theorem accepted_edit {code : String}
    (hset : ∀ totp, call = .setTotp totp → TotpFlow.accepted state.secrets code [.totp totp] = 0)
    (h : call.edit state a t cs = some cs') :
    TotpFlow.accepted state.secrets code cs' ≤ TotpFlow.accepted state.secrets code cs := by
  have hsame (henabled : TotpFlow.enabledTotp cs' = TotpFlow.enabledTotp cs) :
      TotpFlow.accepted state.secrets code cs' ≤ TotpFlow.accepted state.secrets code cs := by
    unfold TotpFlow.accepted
    rw [henabled]
  cases call with
  | setPrimaryPassword hash =>
    obtain ⟨stamp, -, rfl⟩ := Option.map_eq_some_iff.1 h
    refine hsame ((TotpFlow.enabledTotp_append _ _).trans ?_)
    rw [TotpFlow.enabledTotp_filter fun _ => rfl]
    exact Option.or_none
  | addAppPassword appPassword =>
    cases h
    exact hsame ((TotpFlow.enabledTotp_append _ _).trans Option.or_none)
  | revokeAppPassword id =>
    simp only [CredentialCall.edit] at h
    split at h
    · cases h
    · cases h
      exact hsame (TotpFlow.enabledTotp_filter (fun _ => rfl) cs)
  | setTotp totp =>
    cases h
    have hnone := hset totp rfl
    unfold TotpFlow.accepted at hnone ⊢
    rw [TotpFlow.enabledTotp_withTotp]
    exact hnone.le.trans (Nat.zero_le _)
  | clearTotp =>
    cases h
    unfold TotpFlow.accepted
    rw [TotpFlow.enabledTotp_without]
    exact Nat.zero_le _
  | totpLogin body token =>
    simp only [CredentialCall.edit, CredentialCall.loginEdit] at h
    split at h
    · split at h
      · split at h
        next hcomplete =>
          split at h
          next hconsumed =>
            cases h
            exact (TotpFlow.accepted_withTotp hcomplete hconsumed code).1
          next =>
            cases h
            exact le_rfl
        next => cases h
      · cases h
        exact le_rfl
    · cases h

theorem accepted_login {body : TotpBody} {token : String}
    {account : Account} (haccount : CredentialCall.accountOf t = some account)
    (hid : account.id = a)
    (hcode : ∀ secret time, state.secrets.verifyCode secret (trim body.code) time ≠ .ok true)
    (h : (CredentialCall.totpLogin body token).edit state a t cs = some cs') :
    TotpFlow.accepted state.secrets (trim body.code) cs' <
      TotpFlow.accepted state.secrets (trim body.code) cs := by
  simp only [CredentialCall.edit, haccount, CredentialCall.loginEdit] at h
  split at h
  next account' now haccount' htime =>
    cases haccount'
    rw [if_pos hid] at h
    split at h
    next hcomplete =>
      obtain ⟨totp, hconsumed⟩ := TotpFlow.consumed_of_granted hcomplete
      rw [hconsumed] at h
      cases h
      exact (TotpFlow.accepted_withTotp hcomplete hconsumed (trim body.code)).2 fun secret =>
        hcode secret now
    next => cases h
  next => cases h

section Sequence
omit [DecidableEq ι]
variable {calls : ι → CredentialCall} {T : ι → Trace sig} {L : List ι} {cs cs' : List Credential}

variable {i : ι}

theorem revoked_of_leads (h : Leads (fun i => (calls i).edit state a (T i)) cs L cs') (hi : i ∈ L)
    {id : ℕ} (hcall : calls i = .revokeAppPassword id)
    (hadd : ∀ j appPassword, calls j = .addAppPassword appPassword → appPassword.id ≠ id) :
    ∀ c ∈ cs', c.isAppPassword id = false := by
  refine h.after hi (fun u v hedit => ?_) fun j _ u v hedit => edit_revoked (hadd j) hedit
  rw [hcall] at hedit
  simp only [CredentialCall.edit] at hedit
  split at hedit
  · cases hedit
  · cases hedit
    intro c hc
    simpa using (mem_filter.1 hc).2

theorem replaced_of_leads (h : Leads (fun i => (calls i).edit state a (T i)) cs L cs') (hi : i ∈ L)
    {hash : String} (hcall : calls i = .setPrimaryPassword hash) :
    ∀ record, .primaryPassword record ∈ cs' →
      ∃ j ∈ L, calls j = .setPrimaryPassword record.hash := by
  refine h.after (P := fun cs => ∀ record, .primaryPassword record ∈ cs →
    ∃ j ∈ L, calls j = .setPrimaryPassword record.hash) hi
    (fun u v hedit record hrecord => ?_) fun j hj u v hedit ih record hrecord => ?_
  · rw [hcall] at hedit
    obtain ⟨stamp, -, rfl⟩ := Option.map_eq_some_iff.1 hedit
    rcases mem_append.1 hrecord with hold | hnew
    · exact absurd (mem_filter.1 hold).2 (by simp [Credential.isPrimaryPassword])
    · cases mem_singleton.1 hnew
      exact ⟨i, hi, hcall⟩
  · cases source_of_edit hedit hrecord with
    | old hold => exact ih record hold
    | primary hprimary => exact ⟨j, hj, hprimary⟩

theorem consumed_of_leads (h : Leads (fun i => (calls i).edit state a (T i)) cs L cs')
    {code : String} (hset : ∀ i totp, calls i = .setTotp totp →
      TotpFlow.accepted state.secrets code [.totp totp] = 0)
    (hcode : ∀ secret time, state.secrets.verifyCode secret code time ≠ .ok true)
    (logsIn : ι → Bool)
    (hlogin : ∀ i, logsIn i → ∃ body token account, calls i = .totpLogin body token ∧
      trim body.code = code ∧ CredentialCall.accountOf (T i) = some account ∧ account.id = a) :
    L.countP logsIn ≤ TotpFlow.accepted state.secrets code cs := by
  refine h.countP_le (TotpFlow.accepted state.secrets code) logsIn fun i _ u v hedit => ?_
  cases hi : logsIn i with
  | false => exact accepted_edit (hset i) hedit
  | true =>
    obtain ⟨body, token, account, hcall, rfl, haccount, hid⟩ := hlogin i hi
    rw [hcall] at hedit
    exact accepted_login haccount hid hcode hedit

end Sequence

variable (state digest a)

def Succeeded (p : Pool sig World ι CredentialReply) (i : ι) : Prop :=
  ∃ reply, p.thread i = .ret reply ∧ CredentialCall.Succeeds reply

def LogsIn (calls : ι → CredentialCall) (p : Pool sig World ι CredentialReply) (code : String)
    (i : ι) : Prop :=
  ∃ body token account, calls i = .totpLogin body token ∧ trim body.code = code ∧
    CredentialCall.accountOf (traceOf i p.past) = some account ∧ account.id = a

/-- The list is what the calls that succeeded make of it one after the other. A
revoked app password is gone, a primary password is one of those that were set,
and a recovery code that is not set anew lets one login in. -/
structure InSequence (calls : ι → CredentialCall) (w : World)
    (p : Pool sig World ι CredentialReply) : Prop where
  order : ∃ L : List ι, L.Nodup ∧ (∀ i, i ∈ L ↔ Succeeded p i) ∧
    Leads (fun i => (calls i).edit state a (traceOf i p.past)) (credentialsOf a w) L
      (credentialsOf a p.state)
  revoked : ∀ i id, calls i = .revokeAppPassword id → Succeeded p i →
    (∀ j appPassword, calls j = .addAppPassword appPassword → appPassword.id ≠ id) →
    ∀ c ∈ credentialsOf a p.state, c.isAppPassword id = false
  replaced : ∀ i hash, calls i = .setPrimaryPassword hash → Succeeded p i →
    ∀ record, .primaryPassword record ∈ credentialsOf a p.state →
    ∃ j, Succeeded p j ∧ calls j = .setPrimaryPassword record.hash
  consumed : ∀ code, (∀ secret time, state.secrets.verifyCode secret code time ≠ .ok true) →
    (∀ i totp, calls i = .setTotp totp → TotpFlow.accepted state.secrets code [.totp totp] = 0) →
    TotpFlow.accepted state.secrets code (credentialsOf a w) ≤ 1 →
    ∀ i j, LogsIn a calls p code i → Succeeded p i → LogsIn a calls p code j → Succeeded p j → i = j

def credentialCalls (calls : ι → CredentialCall) (w : World) : Pool sig World ι CredentialReply :=
  Pool.start w fun i => (calls i).prog state a

theorem exists_order (calls : ι → CredentialCall) (w : World) (turns : List ι)
    (hfinished : ((credentialCalls state a calls w).run (machine digest) turns).Finished)
    (hfinds : Always (FindsList a)
      ((credentialCalls state a calls w).run (machine digest) turns).past) :
    let p := (credentialCalls state a calls w).run (machine digest) turns
    ∃ L : List ι, L.Nodup ∧ (∀ i, i ∈ L ↔ Succeeded p i) ∧
      Leads (fun i => (calls i).edit state a (traceOf i p.past)) (credentialsOf a w) L
        (credentialsOf a p.state) := by
  have hrun := Pool.obeying_run (machine digest) w
    (fun i => CredentialCall.obeys_prog state a (calls i)) turns
  change Pool.Obeying _ _ _ _ _ ((credentialCalls state a calls w).run (machine digest) turns) at hrun
  generalize (credentialCalls state a calls w).run (machine digest) turns = p at hfinished hfinds hrun
  have hatOnce : Always (AtOnce (machine digest) (credentialsOf a)
      (fun i => (calls i).edit state a (traceOf i p.past)) (WritesList a)) p.past := by
    refine Always.of_forall_split fun post e t hpast => ?_
    have hevents := hrun.events
    rw [hpast] at hfinds hevents ⊢
    exact atOnce_of_step hevents.of_split hfinds.of_split
  have hreturned (i : ι) : ∃ reply, p.thread i = .ret reply := by
    rcases hfinished i with hret | ⟨e, hfail⟩
    · exact hret
    · exact (hrun.failed (machine digest) hfail).elim
  refine exists_serial (machine digest) _ _ _ hrun.history hatOnce (Succeeded p) ?_ ?_
  · rintro i ⟨e, he, ⟨op, hop, hloc⟩, rfl⟩
    obtain ⟨reply, hret⟩ := hreturned e.who
    refine ⟨reply, hret, (hrun.returned (machine digest) hret).succeeds ?_⟩
    exact ⟨⟨e.cmd, e.res⟩, mem_traceOf.2 ⟨e, he, rfl, rfl⟩, op, hop, hloc⟩
  · rintro i ⟨reply, hret, hsucceeds⟩ hnot
    have hunwritten : ¬ CredentialCall.Wrote a (traceOf i p.past) := by
      rintro ⟨x, hx, hop⟩
      obtain ⟨e, he, hwho, rfl⟩ := mem_traceOf.1 hx
      exact hnot ⟨e, he, hop, hwho⟩
    rcases (hrun.returned (machine digest) hret).kept hsucceeds hunwritten with
      ⟨found, hgot, hedit⟩ | ⟨hne, hedit⟩
    · obtain ⟨⟨who, before, cmd, res⟩, he, hwho, hcmd⟩ := mem_traceOf.1 hgot
      have hres := hrun.history.res_eq _ he
      cases hcmd
      have hread : Option.getD res [] = credentialsOf a before := congrArg (Option.getD · []) hres
      exact ⟨_, he, hwho, hread ▸ hedit⟩
    · obtain ⟨x, hx⟩ := exists_mem_of_ne_nil _ hne
      obtain ⟨e, he, hwho, -⟩ := mem_traceOf.1 hx
      exact ⟨e, he, hwho, hedit _⟩

theorem inSequence_of_findsList (calls : ι → CredentialCall) (w : World) (turns : List ι)
    (hfinished : ((credentialCalls state a calls w).run (machine digest) turns).Finished)
    (hfinds : Always (FindsList a)
      ((credentialCalls state a calls w).run (machine digest) turns).past) :
    InSequence state a calls w ((credentialCalls state a calls w).run (machine digest) turns) := by
  obtain ⟨L, hnodup, hmem, hleads⟩ := exists_order state digest a calls w turns hfinished hfinds
  refine ⟨⟨L, hnodup, hmem, hleads⟩, ?_, ?_, ?_⟩
  · intro i id hcall hsucceeded hadd
    exact revoked_of_leads hleads ((hmem i).2 hsucceeded) hcall hadd
  · intro i hash hcall hsucceeded record hrecord
    obtain ⟨j, hj, hset⟩ := replaced_of_leads hleads ((hmem i).2 hsucceeded) hcall record hrecord
    exact ⟨j, (hmem j).1 hj, hset⟩
  · classical
    intro code hcode hset hone i j hi hsi hj hsj
    have hcount := consumed_of_leads hleads hset hcode
      (fun k => decide (LogsIn a calls ((credentialCalls state a calls w).run (machine digest) turns)
        code k)) fun k hk => of_decide_eq_true hk
    rw [List.countP_eq_length_filter] at hcount
    by_contra hne
    have hpair : [i, j] ⊆ L.filter fun k => decide (LogsIn a calls
        ((credentialCalls state a calls w).run (machine digest) turns) code k) := by
      intro k hk
      rcases List.mem_cons.1 hk with rfl | hk
      · exact List.mem_filter.2 ⟨(hmem k).2 hsi, decide_eq_true hi⟩
      · rw [List.mem_singleton.1 hk]
        exact List.mem_filter.2 ⟨(hmem j).2 hsj, decide_eq_true hj⟩
    have htwo := (List.subperm_of_subset (by simpa using hne) hpair).length_le
    have hle : 2 ≤ 1 := htwo.trans (hcount.trans hone)
    omega

end Runs

/-! ## A revoked app password that comes back -/

def sampleState : AppState where
  secrets := ⟨fun secret hash => .ok (secret == hash), fun _ => .ok [], fun _ _ _ => .ok false,
    fun code hash => .ok (code == hash)⟩
  policy := .default
  tokenHash := fun _ => []
  recoveryAdmin := none

def phone : AppPassword := ⟨1, "phone", "secret", 0, none⟩

def sampleCredentials : World :=
  { World.empty (.new 0) 0 with
    records := (∅ : Records).insert (.credentials 7)
      [.primaryPassword ⟨"password", 0⟩, .appPassword phone] }

def revokeAndReplace : Bool → CredentialCall
  | false => .revokeAppPassword 1
  | true => .setPrimaryPassword "new password"

def revokeAndReplaceRun (turns : List Bool) : Pool sig World Bool CredentialReply :=
  (credentialCalls sampleState 7 revokeAndReplace sampleCredentials).run (machine fun _ => []) turns

/-- The new password is written over the list that still had the app password. -/
theorem replacedBetween_not_inSequence :
    (revokeAndReplaceRun [true, false, false, true, true]).Finished ∧
      ¬ InSequence sampleState 7 revokeAndReplace sampleCredentials
        (revokeAndReplaceRun [true, false, false, true, true]) := by
  refine ⟨fun i => ?_, fun h => ?_⟩
  · cases i <;> exact .inl ⟨_, rfl⟩
  · have hgone := h.revoked false 1 rfl ⟨_, rfl, rfl⟩ (by rintro (_ | _) _ hcall <;> cases hcall)
    exact absurd (hgone (.appPassword phone) (by decide +kernel)) (by decide)

theorem replacedAfter_inSequence :
    InSequence sampleState 7 revokeAndReplace sampleCredentials
      (revokeAndReplaceRun [false, false, true, true, true]) := by
  refine inSequence_of_findsList sampleState (fun _ => []) 7 revokeAndReplace sampleCredentials
    [false, false, true, true, true] (fun i => ?_) (by decide +kernel)
  cases i <;> exact .inl ⟨_, rfl⟩

end IrixMail.Http
