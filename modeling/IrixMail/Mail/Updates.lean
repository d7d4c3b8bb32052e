import IrixMail.Library.Serial
import IrixMail.Mail.Ledger

/-!
# Concurrent updates of one message

`updateMessages` commits on the condition that the records are as it read them;
`updateMessage` and `deleteMessage` commit a plain batch. The calls on one
document take effect in the order of their commits, as long as the plain batches
too find the record that they are computed from. A call of `updateMessages` that
leaves the record as it is commits nothing for it, and is placed where it read it.
-/

namespace IrixMail.Mail
open Library Prog Store WriteOp Serial List

inductive RecordCall
  | update (mutate : Mutation)
  | updates (ds : List ℕ) (mutate : ℕ → Mutation)
  | delete

namespace RecordCall

def op (a d : ℕ) : RecordCall → MailOp
  | update mutate => .update a d mutate
  | updates ds mutate => .updates a ds mutate
  | delete => .delete a d

def apply (d : ℕ) : RecordCall → Option MessageData → Option (Option MessageData)
  | _, none => none
  | update mutate, some data => (mutate data).toOption.map some
  | updates _ mutate, some data => (mutate d data).toOption.map some
  | delete, some _ => some none

def Succeeds (d : ℕ) : RecordCall → Reply → Prop
  | update _, reply => reply = .updated true
  | updates _ _, reply => ∃ messages, reply = .updatedAll messages ∧
      ∃ m ∈ messages, m.documentId = d
  | delete, reply => reply = .deleted true

end RecordCall

/-! ## What an attempt does to one record -/

section Attempt
variable {a : ℕ} {mutate : ℕ → Mutation} {t : Trace sig} {ds : List ℕ} {attempt : UpdateAttempt}

theorem Attempted.effects_data (h : Attempted a mutate t ds attempt) (d : ℕ) {s : Records}
    (hasserts : ∀ x ∈ attempt.asserts, s.meets x) :
    (∀ op ∈ attempt.ops, op.loc ≠ .data a d) ∨
      ∃ original data, s.lookup (.data a d) = some original ∧ mutate d original = .ok data ∧
        ∀ x, effects (.data a d) attempt.ops x = some data := by
  induction h with
  | nil => exact .inl (by simp)
  | absent _ _ ih => exact ih hasserts
  | unchanged _ _ _ ih => exact ih hasserts
  | @changed e ds original data vanished n rest hread hmutate hne hvanished hn _ ih =>
    have hheld : s.lookup (.data a e) = some original := by
      simpa [Records.meets] using hasserts _ mem_cons_self
    have hrest := ih fun x hx => hasserts x (mem_cons_of_mem _ hx)
    by_cases he : e = d
    · subst he
      refine .inr ⟨original, data, hheld, hmutate, fun x => ?_⟩
      rw [effects_append, effects_updateBatch_data hvanished, if_pos rfl]
      rcases hrest with hnone | ⟨original', data', hheld', hmutate', heffects⟩
      · exact effects_of_ne hnone _
      · obtain rfl := Option.some.inj (hheld.symm.trans hheld')
        obtain rfl := Except.ok.inj (hmutate.symm.trans hmutate')
        exact heffects _
    · refine hrest.imp (fun hnone op hop => ?_) fun ⟨original', data', hheld', hmutate', heffects⟩ =>
        ⟨original', data', hheld', hmutate', fun x => ?_⟩
      · rcases mem_append.1 hop with hop | hop
        · simp only [updateBatch, append_assoc, mem_append, mem_singleton] at hop
          rcases hop with rfl | hop
          · simpa using he
          · exact (within_updateTail hvanished).loc_ne (by simp) op (by simpa using hop)
        · exact hnone op hop
      · rw [effects_append]
        exact heffects _

theorem Attempted.reported (h : Attempted a mutate t ds attempt) {d : ℕ}
    (hop : ∃ op ∈ attempt.ops, op.loc = .data a d) : ∃ m ∈ attempt.results, m.documentId = d := by
  induction h with
  | nil => simp at hop
  | absent _ _ ih => exact ih hop
  | unchanged _ _ _ ih =>
    obtain ⟨m, hm, hd⟩ := ih hop
    exact ⟨m, mem_cons_of_mem _ hm, hd⟩
  | @changed e ds original data vanished n rest hread hmutate hne hvanished hn _ ih =>
    obtain ⟨op, hop, hloc⟩ := hop
    rcases mem_append.1 hop with hop | hop
    · refine ⟨_, mem_cons_self, ?_⟩
      simp only [updateBatch, append_assoc, mem_append, mem_singleton] at hop
      rcases hop with rfl | hop
      · exact (Loc.data.inj hloc).2
      · exact absurd hloc ((within_updateTail hvanished).loc_ne (by simp) op (by simpa using hop))
    · obtain ⟨m, hm, hd⟩ := ih ⟨op, hop, hloc⟩
      exact ⟨m, mem_cons_of_mem _ hm, hd⟩

theorem Attempted.written_or_kept (h : Attempted a mutate t ds attempt) {d : ℕ}
    (hm : ∃ m ∈ attempt.results, m.documentId = d) :
    (∃ op ∈ attempt.ops, op.loc = .data a d) ∨
      ∃ data, Got (.data a d) (some data) t ∧ mutate d data = .ok data := by
  induction h with
  | nil => simp at hm
  | absent _ _ ih => exact ih hm
  | @unchanged e ds data rest hread hmutate _ ih =>
    obtain ⟨m, hm, rfl⟩ := hm
    rcases mem_cons.1 hm with rfl | hm
    · exact .inr ⟨data, hread, hmutate⟩
    · exact ih ⟨m, hm, rfl⟩
  | @changed e ds original data vanished n rest hread hmutate hne hvanished hn _ ih =>
    obtain ⟨m, hm, rfl⟩ := hm
    rcases mem_cons.1 hm with rfl | hm
    · exact .inl ⟨_, mem_append_left _ mem_cons_self, rfl⟩
    · refine (ih ⟨m, hm, rfl⟩).imp_left fun ⟨op, hop, hloc⟩ => ?_
      exact ⟨op, mem_append_right _ hop, hloc⟩

end Attempt

/-! ## The order of the commits -/

section Runs
variable {ι : Type} [DecidableEq ι] {env : Env} {a d : ℕ}

def WritesData (a d : ℕ) (e : Event sig World ι) : Prop :=
  ∃ op ∈ e.cmd.written e.res, op.loc = .data a d

def FindsRead (a d : ℕ) (e : Event sig World ι) (past : Past ι) : Prop :=
  isBatch e.cmd → Unchanged (· = .data a d) e past

instance (e : Event sig World ι) (past : Past ι) :
    Decidable (FindsRead a d e past) :=
  inferInstanceAs (Decidable (isBatch e.cmd → Unchanged (· = .data a d) e past))

structure OnRecord (env : Env) (a d : ℕ) (call : RecordCall) (e : Event sig World ι)
    (past : Past ι) : Prop where
  commits : WritesData a d e → Commit ⟨e.cmd, e.res⟩
  once : Commit ⟨e.cmd, e.res⟩ → Uncommitted (traceOf e.who past)
  applies : WritesData a d e → call.apply d (e.before.records.lookup (.data a d)) =
    some ((machine env.digest e.cmd e.before).2.records.lookup (.data a d))
  plain : Commit ⟨e.cmd, e.res⟩ → (∃ ds mutate, call = .updates ds mutate) ∨ WritesData a d e

variable {e : Event sig World ι} {past : Past ι} {i : ι} {reply : Reply}

omit [DecidableEq ι] in
theorem not_writesData {K : List LocKind} (h : Within K e.cmd.writes)
    (hK : .data ∉ K) : ¬ WritesData a d e :=
  fun ⟨op, hop, hloc⟩ => h.loc_ne (by simpa using hK) op (Cmd.writes_of_written hop) hloc

variable {call : RecordCall}

theorem onRecord_of_quiet (h : Quiet e.cmd) : OnRecord env a d call e past := by
  have hwrites : ¬ WritesData a d e := not_writesData (within_of_quiet h) (by simp)
  have hcommit : ¬ Commit ⟨e.cmd, e.res⟩ := not_commit_of_quiet h
  exact ⟨fun h => absurd h hwrites, fun h => absurd h hcommit, fun h => absurd h hwrites,
    fun h => absurd h hcommit⟩

theorem RecordCall.onRecord (hallows : (call.op a d).Allows env (traceOf e.who past) e.cmd)
    (hres : e.res = (machine env.digest e.cmd e.before).1) (hfinds : FindsRead a d e past) :
    OnRecord env a d call e past := by
  obtain ⟨i, w, cmd, r⟩ := e
  cases call with
  | update mutate =>
    cases hallows with
    | quiet h => exact onRecord_of_quiet h
    | put hfiles _ => exact hfiles.elim
    | file hfiles _ => exact hfiles.elim
    | @update _ _ _ original data ops h =>
      obtain ⟨vanished, n, hvanished, hn, rfl⟩ := h.ops
      refine ⟨fun _ => trivial, fun _ => h.uncommitted, fun _ => ?_,
        fun _ => .inr ⟨_, mem_cons_self, rfl⟩⟩
      have hread : w.records.lookup (.data a d) = some original := (hfinds rfl).lookup_eq rfl h.read
      have hwritten : (machine env.digest (.batch (updateBatch a d n data vanished)) w).2.records.lookup
          (.data a d) = some data := by
        rw [records_machine, Records.lookup_batch]
        exact (effects_updateBatch_data hvanished _ _ _).trans (if_pos rfl)
      rw [hread, hwritten, RecordCall.apply, h.mutated]
      rfl
  | updates ds mutate =>
    cases hallows with
    | quiet h => exact onRecord_of_quiet h
    | put hfiles _ => exact hfiles.elim
    | file hfiles _ => exact hfiles.elim
    | @updates _ _ _ attempt hu h =>
      refine ⟨fun hwrites => ?_, fun _ => hu, fun hwrites => ?_, fun _ => .inl ⟨_, _, rfl⟩⟩
      · obtain ⟨op, hop, -⟩ := hwrites
        cases r with
        | false => simp [Cmd.written] at hop
        | true => rfl
      · obtain ⟨op, hop, hloc⟩ := hwrites
        cases r with
        | false => simp [Cmd.written] at hop
        | true =>
          have hasserts : attempt.asserts.all w.records.meets = true := by
            by_contra hfalse
            simp [machine, hfalse] at hres
          have hmachine : (machine env.digest (.batchConditional attempt.asserts attempt.ops) w).2 =
              { w with records := w.records.batch attempt.ops } := by
            simp [machine, hasserts]
          rcases h.effects_data d (all_eq_true.1 hasserts) with
            hnone | ⟨original, data, hheld, hmutate, heffects⟩
          · exact absurd hloc (hnone op (by simpa [Cmd.written] using hop))
          · rw [hmachine]
            rw [Records.lookup_batch, heffects, hheld, RecordCall.apply, hmutate]
            rfl
  | delete =>
    cases hallows with
    | quiet h => exact onRecord_of_quiet h
    | put hfiles _ => exact hfiles.elim
    | file hfiles _ => exact hfiles.elim
    | @remove _ _ data held ops h =>
      obtain ⟨linked, vanished, n, hlinked, hvanished, hn, rfl⟩ := h.ops
      have hmem : WriteOp.delete (.data a d) ∈ removalBatch a d n data.size linked vanished := by
        rw [removalBatch_eq]
        simp
      refine ⟨fun _ => trivial, fun _ => h.uncommitted, fun _ => ?_, fun _ => .inr ⟨_, hmem, rfl⟩⟩
      have hread : w.records.lookup (.data a d) = some data := (hfinds rfl).lookup_eq rfl h.read
      have hgone : (machine env.digest (.batch (removalBatch a d n data.size linked vanished))
          w).2.records.lookup (.data a d) = none := lookup_removed_data hvanished
      rw [hread, hgone]
      rfl
    | @release _ _ _ _ held ops h ht =>
      have hwrites : ¬ WritesData a d (⟨i, w, .addAndGet (.refCount held.blobHash) (-1), r⟩ :
          Event sig World ι) :=
        not_writesData (K := [.counter]) (within_nil.cons (by simp)) (by simp)
      exact ⟨fun h => absurd h hwrites, False.elim, fun h => absurd h hwrites, False.elim⟩

variable {calls : ι → RecordCall} {w : World}

abbrev OnRecords (env : Env) (calls : ι → RecordCall) (a d : ℕ) :
    Past ι → Prop :=
  Always fun e t => OnRecord env a d (calls e.who) e t

theorem OnRecords.mem (h : OnRecords env calls a d past)
    (he : e ∈ past) : ∃ t, OnRecord env a d (calls e.who) e t := by
  obtain ⟨post, pre, rfl⟩ := append_of_mem he
  exact ⟨pre, h.of_split⟩

theorem OnRecords.not_uncommitted (h : OnRecords env calls a d past)
    (hi : Took (WritesData a d) past i) :
    ¬ Uncommitted (traceOf i past) := by
  obtain ⟨e, he, hwrites, rfl⟩ := hi
  obtain ⟨t, hon⟩ := h.mem he
  exact fun hu => hu _ (mem_traceOf.2 ⟨e, he, rfl, rfl⟩) (hon.commits hwrites)

theorem OnRecords.atOnce (h : OnRecords env calls a d past)
    (hon : OnRecord env a d (calls e.who) e past)
    (hres : e.res = (machine env.digest e.cmd e.before).1) :
    AtOnce (machine env.digest) (fun v => v.records.lookup (.data a d))
      (fun i => (calls i).apply d) (WritesData a d) e past where
  applies := hon.applies
  still hnot := lookup_machine_of_ne env.digest fun op hop hloc => hnot ⟨op, hres ▸ hop, hloc⟩
  once hwrites x hx hxw hwho := by
    refine h.not_uncommitted ⟨x, hx, hxw, hwho⟩ ?_
    exact hon.once (hon.commits hwrites)

theorem OnRecords.commit_unique (h : OnRecords env calls a d past) {x y : Access}
    (hx : x ∈ traceOf i past)
    (hy : y ∈ traceOf i past) (hcx : Commit x) (hcy : Commit y) : x = y := by
  induction past with
  | nil => cases hx
  | cons e past ih =>
    by_cases hi : e.who = i
    · rw [traceOf_cons_self hi] at hx hy
      have hfirst : Commit ⟨e.cmd, e.res⟩ → Uncommitted (traceOf i past) := hi ▸ h.1.once
      rcases mem_cons.1 hx with rfl | hx <;> rcases mem_cons.1 hy with rfl | hy
      · rfl
      · exact absurd hcy (hfirst hcx y hy)
      · exact absurd hcx (hfirst hcy x hx)
      · exact ih h.2 hx hy
    · rw [traceOf_cons_of_ne hi] at hx hy
      exact ih h.2 hx hy

theorem OnRecords.succeeds (h : OnRecords env calls a d past)
    (hreturns : ((calls i).op a d).Returns (traceOf i past) reply)
    (hwrote : Took (WritesData a d) past i) : (calls i).Succeeds d reply := by
  have hcommitted := h.not_uncommitted hwrote
  cases hcall : calls i with
  | update mutate =>
    rw [hcall] at hreturns
    obtain ⟨found, rfl, hfound⟩ := hreturns
    exact congrArg Reply.updated (hfound.2 hcommitted)
  | delete =>
    rw [hcall] at hreturns
    obtain ⟨found, rfl, hfound, -⟩ := hreturns
    exact congrArg Reply.deleted (hfound.2 hcommitted)
  | updates ds mutate =>
    rw [hcall] at hreturns
    obtain ⟨messages, asserts, ops, rfl, hattempt, hnone | hcommit⟩ := hreturns
    · exact absurd hnone.2 hcommitted
    -- the commit of the reply is the event that wrote the record
    obtain ⟨e, he, hwrites, rfl⟩ := hwrote
    obtain ⟨t, hon⟩ := h.mem he
    have heq : (⟨e.cmd, e.res⟩ : Access) = ⟨.batchConditional asserts ops, true⟩ :=
      h.commit_unique (mem_traceOf.2 ⟨e, he, rfl, rfl⟩) hcommit (hon.commits hwrites) rfl
    obtain ⟨j, v, cmd, r⟩ := e
    cases heq
    exact ⟨messages, rfl, hattempt.reported hwrites⟩

theorem OnRecords.kept (h : OnRecords env calls a d past)
    (hreturns : ((calls i).op a d).Returns (traceOf i past) reply)
    (hsucceeds : (calls i).Succeeds d reply) (hwrote : ¬ Took (WritesData a d) past i) :
    ∃ data, Got (.data a d) (some data) (traceOf i past) ∧
      (calls i).apply d (some data) = some (some data) := by
  -- a commit of one of the plain calls writes the record
  have hplain : ¬ Uncommitted (traceOf i past) → ∃ ds mutate, calls i = .updates ds mutate := by
    intro hcommitted
    simp only [Uncommitted, not_forall, not_not] at hcommitted
    obtain ⟨x, hx, hcommit⟩ := hcommitted
    obtain ⟨e, he, rfl, rfl⟩ := mem_traceOf.1 hx
    obtain ⟨t, hon⟩ := h.mem he
    exact (hon.plain hcommit).resolve_right fun hwrites => hwrote ⟨e, he, hwrites, rfl⟩
  cases hcall : calls i with
  | update mutate =>
    rw [hcall] at hreturns hsucceeds
    obtain ⟨found, hreply, hfound⟩ := hreturns
    obtain rfl : found = true := Reply.updated.inj (hreply.symm.trans hsucceeds)
    obtain ⟨ds, mutate', heq⟩ := hplain (hfound.1 rfl)
    cases hcall.symm.trans heq
  | delete =>
    rw [hcall] at hreturns hsucceeds
    obtain ⟨found, hreply, hfound, -⟩ := hreturns
    obtain rfl : found = true := Reply.deleted.inj (hreply.symm.trans hsucceeds)
    obtain ⟨ds, mutate', heq⟩ := hplain (hfound.1 rfl)
    cases hcall.symm.trans heq
  | updates ds mutate =>
    rw [hcall] at hreturns hsucceeds
    obtain ⟨messages, asserts, ops, hreply, hattempt, hcommit⟩ := hreturns
    obtain ⟨messages', hreply', hm⟩ := hsucceeds
    obtain rfl := Reply.updatedAll.inj (hreply.symm.trans hreply')
    rcases hattempt.written_or_kept hm with ⟨op, hop, hloc⟩ | ⟨data, hgot, hmutate⟩
    · rcases hcommit with ⟨rfl, -⟩ | hcommit
      · cases hop
      obtain ⟨e, he, hi, heq⟩ := mem_traceOf.1 hcommit
      obtain ⟨j, v, cmd, r⟩ := e
      cases heq
      exact absurd ⟨_, he, ⟨op, hop, hloc⟩, hi⟩ hwrote
    · exact ⟨data, hgot, by simp [RecordCall.apply, hmutate, Except.toOption]⟩

/-- The record is what the successful calls make of it in some order, and a
deleted record stays away. -/
structure Serializable (calls : ι → RecordCall) (a d : ℕ) (w : World)
    (p : Pool sig World ι Reply) : Prop where
  order : ∃ L : List ι, L.Nodup ∧
    (∀ i, i ∈ L ↔ ∃ reply, p.thread i = .ret reply ∧ (calls i).Succeeds d reply) ∧
    Leads (fun i => (calls i).apply d) (w.records.lookup (.data a d)) L
      (p.state.records.lookup (.data a d))
  deleted : ∀ i, calls i = .delete → p.thread i = .ret (.deleted true) →
    p.state.records.lookup (.data a d) = none

def recordCalls (env : Env) (calls : ι → RecordCall) (a d : ℕ) (w : World) :
    Pool sig World ι Reply :=
  Pool.start w fun i => ((calls i).op a d).program env

variable (env a d)

/-- When all calls have ended, and every plain batch found the record as its call
read it, the calls on the document are serializable. -/
theorem serializable_of_findsRead (calls : ι → RecordCall) (w : World) (is : List ι)
    (hfinished : ((recordCalls env calls a d w).run (machine env.digest) is).Finished)
    (h : Always (FindsRead a d) ((recordCalls env calls a d w).run (machine env.digest) is).past) :
    Serializable calls a d w ((recordCalls env calls a d w).run (machine env.digest) is) := by
  have hrun := Pool.obeying_run (machine env.digest) w
    (fun i : ι => ((calls i).op a d).obeys_program env) is
  change Pool.Obeying _ _ _ _ _ ((recordCalls env calls a d w).run (machine env.digest) is) at hrun
  generalize (recordCalls env calls a d w).run (machine env.digest) is = p at hfinished h hrun
  obtain ⟨hon, hatOnce⟩ : OnRecords env calls a d p.past ∧
      Always (AtOnce (machine env.digest) (fun v => v.records.lookup (.data a d))
        (fun i => (calls i).apply d) (WritesData a d)) p.past := by
    refine History.invariant (machine env.digest) hrun.history (hrun.events.and h)
      (I := fun past _ => OnRecords env calls a d past ∧ Always (AtOnce (machine env.digest)
        (fun v => v.records.lookup (.data a d)) (fun i => (calls i).apply d) (WritesData a d)) past)
      ⟨trivial, trivial⟩ ?_
    rintro e t hres - ⟨hallows, hfinds⟩ - ⟨hon, hatOnce⟩
    have he := RecordCall.onRecord hallows hres hfinds
    exact ⟨⟨he, hon⟩, hon.atOnce he hres, hatOnce⟩
  have hreturned : ∀ i reply, p.thread i = .ret reply →
      ((calls i).op a d).Returns (traceOf i p.past) reply :=
    fun i reply hi => hrun.returned (machine env.digest) hi
  obtain ⟨L, hnodup, hmem, hleads⟩ := exists_serial (machine env.digest) _ _ _ hrun.history hatOnce
    (fun i => ∃ reply, p.thread i = .ret reply ∧ (calls i).Succeeds d reply)
    (fun i hi => by
      rcases hfinished i with ⟨reply, hret⟩ | ⟨e, hfail⟩
      · exact ⟨reply, hret, hon.succeeds (hreturned i reply hret) hi⟩
      · exact absurd (hrun.failed (machine env.digest) hfail) (hon.not_uncommitted hi))
    (fun i ⟨reply, hret, hsucceeds⟩ hnot => by
      obtain ⟨data, hgot, happly⟩ := hon.kept (hreturned i reply hret) hsucceeds hnot
      obtain ⟨e, he, hwho, heq⟩ := mem_traceOf.1 hgot
      have hread : e.before.records.lookup (.data a d) = some data := by
        have hres := hrun.history.res_eq _ he
        obtain ⟨k, v, cmd, r⟩ := e
        cases heq
        exact hres.symm
      exact ⟨e, he, hwho, by rw [hread]; exact happly⟩)
  refine ⟨⟨L, hnodup, hmem, hleads⟩, fun i hcall hret => ?_⟩
  refine hleads.absorbed ((hmem i).2 ⟨_, hret, by rw [hcall]; rfl⟩) (fun u v huv => ?_) fun j => ?_
  · cases u <;> simp_all [RecordCall.apply]
  · cases calls j <;> rfl

end Runs

/-! ## An update and a deletion of one message -/

def oneMessage : World :=
  (MailOp.deliver (.plain 7 1 [65])).perform .plain (.empty (.new 0) 0)

def flagAndDelete : Bool → RecordCall
  | false => .update fun data => .ok (data.addKeyword .flagged)
  | true => .delete

def flagAndDeleteRun (schedule : List Bool) : Pool sig World Bool Reply :=
  (recordCalls .plain flagAndDelete 7 1 oneMessage).run (machine Env.plain.digest) schedule

def deletedBetween : List Bool := [false] ++ List.replicate 9 true ++ [false, false]

set_option maxRecDepth 4000 in
/-- Both calls report success, and the deleted record is there again. -/
theorem deletedBetween_not_serializable :
    (flagAndDeleteRun deletedBetween).Finished ∧
      ¬ Serializable flagAndDelete 7 1 oneMessage (flagAndDeleteRun deletedBetween) := by
  refine ⟨fun i => ?_, fun h => ?_⟩
  · cases i <;> exact .inl ⟨_, rfl⟩
  · exact absurd (h.deleted true rfl rfl) (by decide)

def updateFirst : List Bool := List.replicate 3 false ++ List.replicate 9 true

set_option maxRecDepth 4000 in
theorem serializable_updateFirst :
    Always (FindsRead 7 1) (flagAndDeleteRun updateFirst).past ∧
      Serializable flagAndDelete 7 1 oneMessage (flagAndDeleteRun updateFirst) := by
  have hfinds : Always (FindsRead 7 1) (flagAndDeleteRun updateFirst).past := by decide
  refine ⟨hfinds, serializable_of_findsRead .plain 7 1 flagAndDelete oneMessage updateFirst
    (fun i => ?_) hfinds⟩
  cases i <;> exact .inl ⟨_, rfl⟩

end IrixMail.Mail
