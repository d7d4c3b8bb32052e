import IrixMail.Http.Sessions

/-!
# A revoked session stays revoked

The calls of any number of requests run in any interleaving of their store
steps. A renewal writes back a record that it read earlier, and does so whether
or not the record is still there. As long as every renewal finds a record to
replace, a record that has been deleted is never seen again.
-/

namespace IrixMail.Http.Sessions
open Library Prog Store List

variable {ι : Type} (hash : String → Bytes)

/-! ## The steps of each call -/

/-- The scan, or the deletion of the rows that the scan has found. -/
def Removes (keepOut : SessionRecord → Bool) (t : Trace sig) (c : Cmd) : Prop :=
  c = .iterate registry ∨
    ∃ rows : List (Sigma Val), (⟨.iterate registry, rows⟩ : Access) ∈ t ∧
      c = .batch (rows.filterMap (doomed keepOut))

def Call.Step : Call → Trace sig → Cmd → Prop
  | issueAt token info now, _, c => c = .put (.session (hash token))
      ⟨info.accountId, info.username, info.isAdmin, info.kind, now, now⟩
  | validateAt token now, t, c =>
    c = .get (.session (hash token)) ∨ c = .delete (.session (hash token)) ∨
      ∃ record : SessionRecord,
        (⟨.get (.session (hash token)), some record⟩ : Access) ∈ t ∧
        c = .put (.session (hash token)) { record with lastUsedAt := now }
  | revoke token, _, c => c = .get (.session (hash token)) ∨ c = .delete (.session (hash token))
  | revokeAccount accountId, t, c => Removes (fun record => record.accountId == accountId) t c
  | sweepExpiredAt now, t, c => Removes (fun record => record.expired now) t c

def Removed (keepOut : SessionRecord → Bool) (t : Trace sig) : Prop :=
  ∃ rows : List (Sigma Val), (⟨.iterate registry, rows⟩ : Access) ∈ t ∧
    (rows.filterMap (doomed keepOut) ≠ [] →
      (⟨.batch (rows.filterMap (doomed keepOut)), ()⟩ : Access) ∈ t)

def Call.Returned : Call → Trace sig → Reply → Prop
  | revoke token, t, .revoked done =>
    done = true → (⟨.delete (.session (hash token)), ()⟩ : Access) ∈ t
  | revokeAccount accountId, t, .removed _ => Removed (fun record => record.accountId == accountId) t
  | sweepExpiredAt now, t, .removed _ => Removed (fun record => record.expired now) t
  | _, _, _ => True

theorem obeys_removeWhere (keepOut : SessionRecord → Bool) :
    Obeys (Removes keepOut) (fun _ => True) (fun t _ => Removed keepOut t) []
      (removeWhere keepOut) := by
  refine .perform (.inl rfl) fun rows => ?_
  dsimp only
  split
  · refine .perform (.inr ⟨rows, mem_cons_self, rfl⟩) fun _ => .ret ?_
    exact ⟨rows, mem_cons_of_mem _ mem_cons_self, fun _ => mem_cons_self⟩
  next hempty =>
    refine .ret ⟨rows, mem_cons_self, fun hne => ?_⟩
    exact absurd (length_pos_of_ne_nil hne) hempty

theorem obeys_validateAt (token : String) (now : ℕ) :
    Obeys ((Call.validateAt token now).Step hash) (fun _ => True) (fun _ _ => True) []
      (validateAt hash token now) := by
  refine .call (.inl rfl) fun found => ?_
  cases found with
  | none => exact .ret trivial
  | some record =>
    change Obeys _ _ _ _ (if record.expired now = true then _ else _)
    split
    · exact .call (.inr (.inl rfl)) fun _ => .ret trivial
    · split
      · exact .call (.inr (.inr ⟨record, mem_cons_self, rfl⟩)) fun _ => .ret trivial
      · exact .ret trivial

theorem obeys_revoke (token : String) :
    Obeys ((Call.revoke token).Step hash) (fun _ => True)
      (fun t done => done = true → (⟨.delete (.session (hash token)), ()⟩ : Access) ∈ t)
      [] (revoke hash token) := by
  refine .call (.inl rfl) fun found => ?_
  cases found with
  | none => exact .ret (by simp)
  | some record => exact .call (.inr rfl) fun _ => .ret fun _ => mem_cons_self

theorem obeys_prog (call : Call) :
    Obeys (call.Step hash) (fun _ => True) (call.Returned hash) [] (call.prog hash) := by
  cases call with
  | issueAt token info now => exact .call rfl fun _ => .ret trivial
  | validateAt token now => exact (obeys_validateAt hash token now).bind fun _ _ _ => .ret trivial
  | revoke token => exact (obeys_revoke hash token).bind fun _ _ h => .ret h
  | revokeAccount accountId => exact (obeys_removeWhere _).bind fun _ _ h => .ret h
  | sweepExpiredAt now => exact (obeys_removeWhere _).bind fun _ _ h => .ret h

/-! ## Runs -/

variable (digest : Digest)

/-- A renewal still finds a record under its key. -/
def FindsRecord (calls : ι → Call) (e : Event sig World ι) (_ : Past ι) : Prop :=
  match calls e.who, e.cmd with
  | .validateAt _ _, .put l _ => (e.before.records.lookup l).isSome
  | _, _ => True

instance (calls : ι → Call) (e : Event sig World ι) (past : Past ι) :
    Decidable (FindsRecord calls e past) := by
  unfold FindsRecord
  split <;> infer_instance

def NotIssued (h : Bytes) (calls : ι → Call) : Prop :=
  ∀ i token info now, calls i = .issueAt token info now → hash token ≠ h

def Gone (h : Bytes) (w : World) : Prop := w.records.lookup (.session h) = none

variable {c : Cmd} {h k : Bytes} {w : World} {t : Trace sig}

theorem gone_machine (hgone : Gone h w)
    (hw : ∀ op ∈ c.written (machine digest c w).1, op.loc = .session h → op = .delete (.session h)) :
    Gone h (machine digest c w).2 := by
  rw [Gone, records_machine, Records.lookup_batch, show w.records.lookup _ = none from hgone]
  exact WriteOp.effects_none hw

theorem gone_delete (hgone : Gone h w) :
    Gone h (machine digest (.delete (.session k)) w).2 := by
  refine gone_machine digest hgone fun op hop hl => ?_
  obtain rfl := mem_singleton.1 hop
  exact congrArg WriteOp.delete hl

theorem gone_put (record : SessionRecord) (hne : k ≠ h)
    (hgone : Gone h w) : Gone h (machine digest (.put (.session k) record) w).2 := by
  refine gone_machine digest hgone fun op hop hl => ?_
  obtain rfl := mem_singleton.1 hop
  exact absurd (Loc.session.inj hl) hne

theorem gone_removes {keepOut : SessionRecord → Bool} (hc : Removes keepOut t c)
    (hgone : Gone h w) : Gone h (machine digest c w).2 := by
  rcases hc with rfl | ⟨rows, -, rfl⟩
  · exact hgone
  · refine gone_machine digest hgone fun op hop hl => ?_
    exact (doomed_delete hop).trans (congrArg WriteOp.delete hl)

theorem gone_step {calls : ι → Call} (hissue : NotIssued hash h calls)
    {e : Event sig World ι} {past : Past ι} (hstep : (calls e.who).Step hash t e.cmd) (hfinds : FindsRecord calls e past)
    (hgone : Gone h e.before) : Gone h (machine digest e.cmd e.before).2 := by
  obtain ⟨who, before, cmd, res⟩ := e
  cases hcall : calls who with
  | issueAt token info now =>
    rw [hcall] at hstep
    cases hstep
    exact gone_put digest _ (hissue who token info now hcall) hgone
  | validateAt token now =>
    rw [hcall] at hstep
    rcases hstep with rfl | rfl | ⟨record, -, rfl⟩
    · exact hgone
    · exact gone_delete digest hgone
    · -- the renewal has found a record, so it is another token's
      refine gone_put digest _ ?_ hgone
      rintro rfl
      simp only [FindsRecord, hcall, show before.records.lookup _ = none from hgone] at hfinds
      cases hfinds
  | revoke token =>
    rw [hcall] at hstep
    rcases hstep with rfl | rfl
    · exact hgone
    · exact gone_delete digest hgone
  | revokeAccount accountId =>
    rw [hcall] at hstep
    exact gone_removes digest hstep hgone
  | sweepExpiredAt now =>
    rw [hcall] at hstep
    exact gone_removes digest hstep hgone

theorem set_of_step {call : Call} {record : SessionRecord}
    (hstep : call.Step hash t c) (hset : .set (.session h) record ∈ c.writes) :
    (∃ token info now, call = .issueAt token info now ∧ hash token = h) ∨
      ∃ (read : SessionRecord) (now : ℕ),
        (⟨.get (.session h), some read⟩ : Access) ∈ t ∧
        record = { read with lastUsedAt := now } := by
  have not_removes {keepOut : SessionRecord → Bool} (hc : Removes keepOut t c) : False := by
    rcases hc with rfl | ⟨rows, -, rfl⟩
    · cases hset
    · exact absurd (doomed_delete hset) nofun
  cases call with
  | issueAt token info now =>
    cases hstep
    cases mem_singleton.1 hset
    exact .inl ⟨token, info, now, rfl, rfl⟩
  | validateAt token now =>
    rcases hstep with rfl | rfl | ⟨read, hread, rfl⟩
    · cases hset
    · cases mem_singleton.1 hset
    · cases mem_singleton.1 hset
      exact .inr ⟨read, now, hread, rfl⟩
  | revoke token =>
    rcases hstep with rfl | rfl
    · cases hset
    · cases mem_singleton.1 hset
  | revokeAccount accountId => exact (not_removes hstep).elim
  | sweepExpiredAt now => exact (not_removes hstep).elim

section
variable [DecidableEq ι] {calls : ι → Call} {w₀ : World}

def runOf (calls : ι → Call) (w₀ : World) (turns : List ι) : Pool sig World ι Reply :=
  (Pool.start w₀ fun i => (calls i).prog hash).run (machine digest) turns

inductive Revoked (calls : ι → Call) (w₀ : World) (turns : List ι) (token : String) (i : ι) : Prop
  | byToken : calls i = .revoke token →
      (runOf hash digest calls w₀ turns).thread i = .ret (.revoked true) → Revoked ..
  | byAccount {accountId count : ℕ} : calls i = .revokeAccount accountId →
      (∀ record ∈ w₀.records.lookup (.session (hash token)), record.accountId = accountId) →
      (runOf hash digest calls w₀ turns).thread i = .ret (.removed count) → Revoked ..
  | bySweep {now count : ℕ} : calls i = .sweepExpiredAt now →
      (∀ e ∈ (runOf hash digest calls w₀ turns).past, e.who = i → e.cmd = .iterate registry →
        ∃ record ∈ e.before.records.lookup (.session (hash token)), record.expired now) →
      (runOf hash digest calls w₀ turns).thread i = .ret (.removed count) → Revoked ..

/-- Whoever validates the token after its revocation is told that there is no
such session, on the first turn. -/
def RevocationFinal (calls : ι → Call) (w₀ : World) (turns later : List ι) : Prop :=
  ∀ (i j : ι) (token : String) (now : ℕ), Revoked hash digest calls w₀ turns token i →
    calls j = .validateAt token now → j ∉ turns → j ∈ later →
    (runOf hash digest calls w₀ (turns ++ later)).thread j = .ret (.info none)

theorem obeying_runOf (calls : ι → Call) (w₀ : World) (turns : List ι) :
    Pool.Obeying (machine digest) (fun i => (calls i).Step hash) (fun _ => True)
      (fun i => (calls i).Returned hash) w₀ (runOf hash digest calls w₀ turns) :=
  Pool.obeying_run (machine digest) w₀ (fun i => obeys_prog hash (calls i)) turns

theorem past_runOf (calls : ι → Call) (w₀ : World) (turns later : List ι) :
    ∃ t, (runOf hash digest calls w₀ (turns ++ later)).past =
      t ++ (runOf hash digest calls w₀ turns).past := by
  unfold runOf
  rw [Pool.run_append]
  exact Pool.past_run _ _ later

variable {h : Bytes} {turns : List ι} {past : Past ι} {w : World} {i : ι}

theorem gone_of_event (hissue : NotIssued hash h calls)
    (hfinds : Always (FindsRecord calls) (runOf hash digest calls w₀ turns).past)
    {x : Event sig World ι} (hx : x ∈ (runOf hash digest calls w₀ turns).past)
    (hgone : Gone h (machine digest x.cmd x.before).2) :
    Gone h (runOf hash digest calls w₀ turns).state := by
  have hobeys := obeying_runOf hash digest calls w₀ turns
  refine hobeys.history.invariant (machine digest)
    (I := fun past w => ∀ x ∈ past, Gone h (machine digest x.cmd x.before).2 → Gone h w)
    (hobeys.events.and hfinds) (by simp) ?_ x hx hgone
  intro e t _ _ hC _ ih y hy hafter
  rcases mem_cons.1 hy with rfl | hy
  · exact hafter
  · exact gone_step hash digest hissue hC.1 hC.2 (ih y hy hafter)

theorem accountId_of_history {accountId : ℕ} (hissue : NotIssued hash h calls)
    (hstart : ∀ record ∈ w₀.records.lookup (.session h), record.accountId = accountId)
    (hpast : History (machine digest) w₀ past w)
    (hsteps : Always (fun e t => (calls e.who).Step hash (traceOf e.who t) e.cmd) past) :
    (∀ record ∈ w.records.lookup (.session h), record.accountId = accountId) ∧
      ∀ x ∈ past, ∀ record : SessionRecord,
        (⟨x.cmd, x.res⟩ : Access) = ⟨.get (.session h), some record⟩ →
        record.accountId = accountId := by
  refine hpast.invariant (machine digest)
    (I := fun past w => (∀ record ∈ w.records.lookup (.session h), record.accountId = accountId) ∧
      ∀ x ∈ past, ∀ record : SessionRecord,
        (⟨x.cmd, x.res⟩ : Access) = ⟨.get (.session h), some record⟩ →
        record.accountId = accountId) hsteps ⟨hstart, by simp⟩ ?_
  rintro ⟨who, before, cmd, res⟩ t hres _ hstep _ ⟨hstate, hread⟩
  constructor
  · intro record hrecord
    rw [Option.mem_def, records_machine, Records.lookup_batch] at hrecord
    rcases WriteOp.set_mem_of_effects (by simp) hrecord with hold | hset
    · exact hstate record hold
    · rcases set_of_step hash hstep (Cmd.writes_of_written hset) with
        ⟨token, info, now, hcall, hh⟩ | ⟨read, now, hget, rfl⟩
      · exact absurd hh (hissue who token info now hcall)
      · obtain ⟨x, hx, -, hcmd⟩ := mem_traceOf.1 hget
        exact hread x hx read hcmd
  · intro x hx record hget
    rcases mem_cons.1 hx with rfl | hx
    · cases hget
      exact hstate record hres.symm
    · exact hread x hx record hget

/-- A removal that has returned, and whose scan found nothing to keep under the
hash, has left the hash without a record. -/
theorem exists_gone_of_removed {keepOut : SessionRecord → Bool}
    (hpast : History (machine digest) w₀ past w)
    (hremoved : Removed keepOut (traceOf i past))
    (hkeep : ∀ e ∈ past, e.who = i → e.cmd = .iterate registry →
      ∀ record ∈ e.before.records.lookup (.session h), keepOut record) :
    ∃ x ∈ past, Gone h (machine digest x.cmd x.before).2 := by
  obtain ⟨rows, hscan, hbatch⟩ := hremoved
  obtain ⟨⟨who, before, cmd, res⟩, he, hwho, hcmd⟩ := mem_traceOf.1 hscan
  cases hcmd
  cases hfound : before.records.lookup (.session h) with
  | none => exact ⟨_, he, hfound⟩
  | some record =>
    have hrows : (⟨.session h, record⟩ : Sigma Val) ∈ (res : List (Sigma Val)) := by
      rw [show res = before.records.iterate registry from hpast.res_eq _ he]
      exact Records.mem_iterate.2 ⟨registry_session h, hfound⟩
    have hdelete : .delete (.session h) ∈ res.filterMap (doomed _) :=
      mem_filterMap.2 ⟨_, hrows, if_pos (hkeep _ he hwho rfl record hfound)⟩
    obtain ⟨x, hx, -, hcmd⟩ := mem_traceOf.1 (hbatch (ne_nil_of_mem hdelete))
    refine ⟨x, hx, ?_⟩
    obtain ⟨who', before', cmd', res'⟩ := x
    cases hcmd
    rw [Gone, records_machine, Records.lookup_batch]
    refine WriteOp.effects_of_delete_mem (fun op hop hl => ?_) hdelete _
    exact (doomed_delete hop).trans (congrArg WriteOp.delete hl)

theorem exists_gone_of_revoked {token : String} (hissue : NotIssued hash (hash token) calls)
    (hrevoked : Revoked hash digest calls w₀ turns token i) :
    ∃ x ∈ (runOf hash digest calls w₀ turns).past,
      Gone (hash token) (machine digest x.cmd x.before).2 := by
  have hobeys := obeying_runOf hash digest calls w₀ turns
  cases hrevoked with
  | byToken hcall hret =>
    have hdeleted := hobeys.returned _ hret
    rw [hcall] at hdeleted
    obtain ⟨⟨who, before, cmd, res⟩, hx, -, hcmd⟩ := mem_traceOf.1 (hdeleted rfl)
    cases hcmd
    exact ⟨_, hx, AList.lookup_erase _ _⟩
  | byAccount hcall hstart hret =>
    have hremoved := hobeys.returned _ hret
    rw [hcall] at hremoved
    refine exists_gone_of_removed digest hobeys.history hremoved fun e he _ _ record hrecord => ?_
    obtain ⟨post, pre, hpast⟩ := append_of_mem he
    have hhistory := hobeys.history
    have hevents := hobeys.events
    rw [hpast] at hhistory hevents
    obtain ⟨u, ⟨-, -, hbefore⟩, -⟩ := hhistory.split
    have haccount := (accountId_of_history hash digest hissue hstart hbefore
      hevents.of_append.2).1 record hrecord
    exact beq_iff_eq.2 haccount
  | bySweep hcall hexpired hret =>
    have hremoved := hobeys.returned _ hret
    rw [hcall] at hremoved
    refine exists_gone_of_removed digest hobeys.history hremoved
      fun e he hwho hcmd record hrecord => ?_
    obtain ⟨found, hfound, hexp⟩ := hexpired e he hwho hcmd
    obtain rfl := Option.mem_unique hrecord hfound
    exact hexp

theorem revocationFinal_of_findsRecord (calls : ι → Call) (w₀ : World) (turns later : List ι)
    (hissue : ∀ token, (∃ j now, calls j = .validateAt token now) →
      NotIssued hash (hash token) calls)
    (hfinds : Always (FindsRecord calls) (runOf hash digest calls w₀ (turns ++ later)).past) :
    RevocationFinal hash digest calls w₀ turns later := by
  intro i j token now hrevoked hj hfirst hlater
  have hnew := hissue token ⟨j, now, hj⟩
  obtain ⟨x, hx, hgone⟩ := exists_gone_of_revoked hash digest hnew hrevoked
  obtain ⟨between, rest, rfl, hturn⟩ := List.eq_append_cons_of_mem hlater
  -- the state that the first turn of `j` finds
  have hsplit : turns ++ (between ++ j :: rest) = (turns ++ between) ++ (j :: rest) := by simp
  rw [hsplit] at hfinds ⊢
  obtain ⟨t, ht⟩ := past_runOf hash digest calls w₀ (turns ++ between) (j :: rest)
  obtain ⟨u, hu⟩ := past_runOf hash digest calls w₀ turns between
  have hstate : Gone (hash token) (runOf hash digest calls w₀ (turns ++ between)).state := by
    refine gone_of_event hash digest hnew (ht ▸ hfinds).of_append (x := x) ?_ hgone
    rw [hu]
    exact List.mem_append_right _ hx
  have hthread : (runOf hash digest calls w₀ (turns ++ between)).thread j =
      (Call.validateAt token now).prog hash := by
    unfold runOf
    rw [Pool.thread_run_of_not_mem _ (by simp [hfirst, hturn])]
    exact congrArg (Call.prog hash) hj
  unfold runOf at hstate hthread ⊢
  rw [Pool.run_append]
  refine Pool.thread_run_of_ret _ ?_ rest
  rw [Pool.step_call (machine digest) hthread]
  dsimp only
  rw [Function.update_self,
    show (machine digest (.get (.session (hash token))) _).1 = none from hstate]
  rfl

end

/-! A renewal that has read the record before it is revoked writes it back
afterwards, and the token is good again. -/

def sampleSession : SessionRecord := ⟨7, "user7@example.com", false, .webmail, 0, 0⟩

def sampleWorld : World :=
  { World.empty (.new 0) 0 with records := (∅ : Records).insert (.session []) sampleSession }

def logout : Fin 3 → Call
  | 0 => .validateAt "token" 3600
  | 1 => .revoke "token"
  | 2 => .validateAt "token" 3600

theorem renewedAfterLogout_not_final :
    ¬ RevocationFinal (fun _ => []) (fun _ => []) logout sampleWorld [0, 1, 1] [0, 2] := by
  intro h
  have hnone := h 1 2 "token" 3600 (.byToken rfl rfl) rfl (by decide) (by decide)
  cases hnone

theorem logoutAfterRenewal_final :
    Revoked (fun _ => []) (fun _ => []) logout sampleWorld [0, 0, 1, 1] "token" 1 ∧
      (runOf (fun _ => []) (fun _ => []) logout sampleWorld ([0, 0, 1, 1] ++ [2])).thread 2 =
        .ret (.info none) := by
  have hissue (token : String) (_ : ∃ j now, logout j = .validateAt token now) :
      NotIssued (fun _ => []) [] logout := by
    rintro (_ | _ | _ | _) t info now hcall
    all_goals first | cases hcall | omega
  have hrevoked : Revoked (fun _ => []) (fun _ => []) logout sampleWorld [0, 0, 1, 1] "token" 1 :=
    .byToken rfl rfl
  exact ⟨hrevoked, revocationFinal_of_findsRecord (fun _ => []) (fun _ => []) logout sampleWorld
    [0, 0, 1, 1] [2] hissue (by decide +kernel) 1 2 "token" 3600 hrevoked rfl (by decide)
    (by decide)⟩

end IrixMail.Http.Sessions
