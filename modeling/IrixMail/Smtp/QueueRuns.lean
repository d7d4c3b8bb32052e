import IrixMail.Smtp.QueueSteps
import IrixMail.Store.Histories

/-!
# Runs of the queue

The programs that work on the queue take turns, and any command of theirs may
fail. A message is identified by its id: ids come from one counter, so that as
long as the counter has not wrapped a new record never takes the id of another.
-/

namespace IrixMail.Smtp
open Library Prog Store Mail List

inductive QueueClient
  | enqueue (raw : Bytes) (request : Enqueue)
  | pass (out : OutboundDelivery)
  | retryNow (id now : ℕ)
  | remove (id : ℕ)

def QueueClient.program : QueueClient → Action Unit
  | enqueue raw request => do
    let _ ← Smtp.enqueue raw request
    pure ()
  | pass out => queuePass out
  | retryNow id now => do
    let _ ← Smtp.retryNow id now
    pure ()
  | remove id => Smtp.remove id

theorem steps_program (client : QueueClient) :
    Steps (fun _ => True) (fun _ _ => True) [] client.program := by
  cases client with
  | enqueue raw request =>
    exact (settling_enqueue raw request []).steps.bind fun _ _ _ _ => .ret trivial
  | pass out => exact steps_queuePass out
  | retryNow id now =>
    refine ((steps_retryNow id now).weaken (fun _ _ h => h) (Toward.mono (fun _ h => h.elim) fun _ h => h)).bind
      fun _ _ _ _ => .ret trivial
  | remove id => exact ((tame_remove id).steps []).mono fun _ _ _ _ => trivial

theorem heeds_program (client : QueueClient) :
    Heeds QueueStep (fun _ => True) (fun _ _ => True) [] client.program :=
  Heeds.mono (steps_program client) (fun _ _ => trivial) fun _ _ _ => trivial

/-! ## Records between commands -/

section Records
variable {digest : Digest} {w : World}

variable {id : ℕ} {m : QueuedMessage} {c : Cmd}

theorem recordOfRow_eq_some {row : Sigma Val}
    (h : recordOfRow row = some (id, m)) : row = ⟨.queue id, m⟩ := by
  unfold recordOfRow at h
  split at h
  · cases h
    rfl
  · cases h

theorem lookup_of_recordsIn (h : (id, m) ∈ recordsIn ⟨c, (machine digest c w).1⟩) :
    w.records.lookup (.queue id) = some m := by
  cases c with
  | get l =>
    cases l with
    | queue id' =>
      change (id, m) ∈ recordsIn ⟨.get (.queue id'), w.records.lookup (.queue id')⟩ at h
      cases hstored : w.records.lookup (.queue id') with
      | none =>
        rw [hstored] at h
        cases h
      | some m' =>
        rw [hstored] at h
        obtain ⟨rfl, rfl⟩ : id = id' ∧ m = m' := by simpa [recordsIn] using h
        exact hstored
    | _ => cases h
  | iterate p =>
    change (id, m) ∈ (if p.subspace = .queue then
      (w.records.iterate p).filterMap recordOfRow else []) at h
    split at h
    · obtain ⟨row, hrow, hm⟩ := mem_filterMap.1 h
      rw [recordOfRow_eq_some hm] at hrow
      exact (Records.mem_iterate.1 hrow).2
    · cases h
  | _ => cases h

theorem nodup_recordsIn (digest : Digest) (c : Cmd) (w : World) :
    ((recordsIn ⟨c, (machine digest c w).1⟩).map Prod.fst).Nodup := by
  refine List.Nodup.map_on ?_ ?_
  · rintro ⟨id, m⟩ hm ⟨id', m'⟩ hm' (rfl : id = id')
    have hm := lookup_of_recordsIn hm
    rw [lookup_of_recordsIn hm'] at hm
    rw [Option.some.inj hm]
  · cases c with
    | get l =>
      cases l with
      | queue id =>
        change (recordsIn ⟨.get (.queue id), w.records.lookup (.queue id)⟩).Nodup
        cases w.records.lookup (.queue id) with
        | none => exact nodup_nil
        | some m => exact nodup_singleton _
      | _ => exact nodup_nil
    | iterate p =>
      change (if p.subspace = .queue then
        (w.records.iterate p).filterMap recordOfRow else []).Nodup
      split
      · refine (Table.nodup_scan Loc.encode p.encode w.records).filterMap ?_
        rintro row row' ⟨id, m⟩ hrow hrow'
        rw [recordOfRow_eq_some hrow, recordOfRow_eq_some hrow']
      · exact nodup_nil
    | _ => exact nodup_nil

/-- The command puts or removes the record. -/
def WritesQueue (id : ℕ) (c : Cmd) : Prop :=
  (∃ m, c = .put (.queue id) m) ∨ c = .delete (.queue id)

theorem loc_ne_queue {t : Trace sig} (h : QueueStep t c)
    (hc : ¬ WritesQueue id c) : ∀ op ∈ c.writes, op.loc ≠ .queue id := by
  intro op hop hloc
  cases c with
  | put l v =>
    obtain rfl : op = .set l v := by simpa [Cmd.writes] using hop
    obtain rfl : l = .queue id := hloc
    exact hc (.inl ⟨v, rfl⟩)
  | delete l =>
    obtain rfl : op = .delete l := by simpa [Cmd.writes] using hop
    obtain rfl : l = .queue id := hloc
    exact hc (.inr rfl)
  | batch ops =>
    cases h with
    | batch hwithin =>
      exact hwithin.loc_ne (l := .queue id) (by simp) op hop hloc
  | batchConditional => exact h
  | addAndGet c n =>
    obtain rfl : op = .add c n := by simpa [Cmd.writes] using hop
    cases hloc
  | _ => cases hop

theorem lookup_queue_of_step {t : Trace sig} (h : QueueStep t c) (hc : ¬ WritesQueue id c) :
    (machine digest c w).2.records.lookup (.queue id) = w.records.lookup (.queue id) :=
  lookup_machine_of_ne digest fun op hop =>
    loc_ne_queue h hc op (Cmd.writes_of_written hop)

theorem lookup_put_queue (id : ℕ) (m : QueuedMessage) (id' : ℕ) :
    (machine digest (.put (.queue id) m) w).2.records.lookup (.queue id') =
      if id' = id then some m else w.records.lookup (.queue id') := by
  split
  next heq =>
    subst heq
    exact AList.lookup_insert _
  next hne => exact AList.lookup_insert_ne (by simpa using hne)

theorem lookup_delete_queue (id id' : ℕ) :
    (machine digest (.delete (.queue id)) w).2.records.lookup (.queue id') =
      if id' = id then none else w.records.lookup (.queue id') := by
  split
  next heq =>
    subst heq
    exact AList.lookup_erase _ _
  next hne => exact AList.lookup_erase_ne (by simpa using hne)

theorem add_of_loc_queueIds {t : Trace sig} (h : QueueStep t c) :
    ∀ op ∈ c.writes, op.loc = .counter queueIds → op = .add queueIds 1 := by
  intro op hop hloc
  cases c with
  | put l v =>
    obtain rfl : op = .set l v := by simpa [Cmd.writes] using hop
    obtain rfl : l = .counter queueIds := hloc
    exact h.elim
  | delete l =>
    obtain rfl : op = .delete l := by simpa [Cmd.writes] using hop
    obtain rfl : l = .counter queueIds := hloc
    exact h.elim
  | batch ops =>
    cases h with
    | batch hwithin =>
      refine absurd hloc (hwithin.loc_ne (l := .counter queueIds) ?_ op hop)
      decide
  | batchConditional => exact h.elim
  | addAndGet c n =>
    obtain rfl : op = .add c n := by simpa [Cmd.writes] using hop
    obtain rfl : n = 1 := h
    rw [show c = queueIds from Loc.counter.inj hloc]
  | _ => cases hop

end Records

/-! ## Ids -/

section Ids
variable {ι : Type} {digest : Digest} {w₀ : World} {t : Past ι}

def Known (w₀ : World) (t : Past ι) (id : ℕ) : Prop :=
  (∃ m, w₀.records.lookup (.queue id) = some m) ∨ ∃ e ∈ t, ∃ m, e.cmd = .put (.queue id) m

variable {id : ℕ} {e : Event sig World ι} {i : ι} {next : ℤ} {m : QueuedMessage}

theorem Known.cons (h : Known w₀ t id) (e : Event sig World ι) : Known w₀ (e :: t) id := by
  rcases h with h | ⟨e', he', hput⟩
  · exact .inl h
  · exact .inr ⟨e', mem_cons_of_mem e he', hput⟩

theorem Known.of_cons (h : Known w₀ (e :: t) id) :
    Known w₀ t id ∨ ∃ m, e.cmd = .put (.queue id) m := by
  rcases h with h | ⟨e', he', hput⟩
  · exact .inl (.inl h)
  · rcases mem_cons.1 he' with rfl | he'
    · exact .inr hput
    · exact .inl (.inr ⟨e', he', hput⟩)

variable [DecidableEq ι]

def UpToDate (i : ι) (id : ℕ) (w : World) (t : Past ι) : Prop :=
  ∀ x ∈ recordsRead (traceOf i t), x.1 = id → w.records.lookup (.queue id) = some x.2

instance (i : ι) (id : ℕ) (w : World) (t : Past ι) :
    Decidable (UpToDate i id w t) :=
  inferInstanceAs (Decidable (∀ x ∈ recordsRead (traceOf i t), x.1 = id →
    w.records.lookup (.queue id) = some x.2))

/-- The program has drawn a number for an id, as the last thing it did. -/
def Drawn (i : ι) (t : Past ι) (next : ℤ) : Prop :=
  ∃ u, traceOf i t = ⟨.addAndGet queueIds 1, next⟩ :: u

theorem Drawn.of_cons (h : Drawn i (e :: t) next) :
    (e.who = i ∧ (⟨e.cmd, e.res⟩ : Access) = ⟨.addAndGet queueIds 1, next⟩) ∨
      (e.who ≠ i ∧ Drawn i t next) := by
  obtain ⟨u, hu⟩ := h
  by_cases hwho : e.who = i
  · rw [traceOf_cons_self hwho] at hu
    exact .inl ⟨hwho, (cons.inj hu).1⟩
  · rw [traceOf_cons_of_ne hwho] at hu
    exact .inr ⟨hwho, u, hu⟩

theorem uniqueRows_traceOf {w : World} (h : History (machine digest) w₀ t w) (i : ι) :
    UniqueRows (traceOf i t) := by
  intro x hx
  obtain ⟨e, he, -, rfl⟩ := mem_traceOf.1 hx
  rw [h.res_eq _ he]
  exact nodup_recordsIn digest e.cmd e.before

/-- Every id in use was drawn before every number that is still to be used. -/
structure IdsKept (w₀ : World) (t : Past ι) (w : World) : Prop where
  counter : 0 ≤ w.records.counter queueIds
  stored : ∀ id m, w.records.lookup (.queue id) = some m → Known w₀ t id
  read : ∀ e ∈ t, ∀ x ∈ recordsIn ⟨e.cmd, e.res⟩, Known w₀ t x.1
  bound : ∀ id, Known w₀ t id → (id : ℤ) ≤ w.records.counter queueIds
  drawn : ∀ i next, Drawn i t next → 0 ≤ next ∧ next ≤ w.records.counter queueIds ∧ next < 2 ^ 32
  unused : ∀ i next, Drawn i t next → ∀ id, Known w₀ t id → (id : ℤ) ≠ next
  distinct : ∀ i j next, Drawn i t next → Drawn j t next → i = j

theorem IdsKept.known_of_read {w : World} (h : IdsKept w₀ t w)
    (hm : (id, m) ∈ recordsRead (traceOf i t)) : Known w₀ t id := by
  obtain ⟨x, hx, hxm⟩ := mem_flatMap.1 hm
  obtain ⟨e, he, -, rfl⟩ := mem_traceOf.1 hx
  exact h.read e he (id, m) hxm

theorem IdsKept.drawn_of_queues {w : World} (h : IdsKept w₀ t w)
    (hm : Queues (traceOf i t) id m) : Drawn i t id := by
  obtain ⟨raw, next, u, hu, rfl⟩ := hm
  have hdrawn : Drawn i t next := ⟨_, hu⟩
  obtain ⟨h0, -, hlt⟩ := h.drawn i next hdrawn
  rw [cast_intAsU32 h0 hlt]
  exact hdrawn

theorem IdsKept.fresh {w : World} (h : IdsKept w₀ t w)
    (hm : Queues (traceOf i t) id m) : ¬ Known w₀ t id := fun hknown =>
  h.unused i id (h.drawn_of_queues hm) id hknown rfl

theorem IdsKept.known_or_drawn {w : World} (h : IdsKept w₀ t w)
    (hstep : QueueStep (traceOf i t) (.put (.queue id) m)) :
    Known w₀ t id ∨ Drawn i t id := by
  rcases hstep with hnew | ⟨read, hread, -⟩
  · exact .inr (h.drawn_of_queues hnew)
  · exact .inl (h.known_of_read hread)

omit [DecidableEq ι] in
theorem drawn_eq (hres : e.res = (machine digest e.cmd e.before).1)
    (he : (⟨e.cmd, e.res⟩ : Access) = ⟨.addAndGet queueIds 1, next⟩) :
    e.cmd = .addAndGet queueIds 1 ∧ next = e.before.records.counter queueIds + 1 ∧
      (machine digest e.cmd e.before).2.records.counter queueIds = next := by
  obtain ⟨i, w, c, r⟩ := e
  obtain ⟨rfl, hr⟩ := Sigma.mk.inj he
  cases hr
  obtain rfl : r = w.records.counter queueIds + 1 := hres
  refine ⟨rfl, rfl, ?_⟩
  change ((WriteOp.add queueIds 1).apply w.records : Records).counter queueIds = _
  rw [WriteOp.counter_apply (WriteOp.additive_add _ _), WriteOp.amountAt_add, if_pos rfl]

theorem IdsKept.step (h : IdsKept w₀ t e.before)
    (hres : e.res = (machine digest e.cmd e.before).1)
    (hstep : QueueStep (traceOf e.who t) e.cmd)
    (hroom : e.cmd = .addAndGet queueIds 1 → e.before.records.counter queueIds + 1 < 2 ^ 32) :
    IdsKept w₀ (e :: t) (machine digest e.cmd e.before).2 := by
  have hcounter : e.before.records.counter queueIds ≤
      (machine digest e.cmd e.before).2.records.counter queueIds := by
    rw [records_machine]
    exact counter_le_batch
      (fun op hop => add_of_loc_queueIds hstep op (Cmd.writes_of_written hop)) _
  have hdraw : ∀ next : ℤ, (⟨e.cmd, e.res⟩ : Access) = ⟨.addAndGet queueIds 1, next⟩ →
      e.cmd = .addAndGet queueIds 1 ∧ next = e.before.records.counter queueIds + 1 ∧
        (machine digest e.cmd e.before).2.records.counter queueIds = next :=
    fun _ => drawn_eq hres
  have hput : ∀ id m, e.cmd = .put (.queue id) m → Known w₀ t id ∨ Drawn e.who t id :=
    fun id m hm => h.known_or_drawn (m := m) (hm ▸ hstep)
  refine ⟨h.counter.trans hcounter, fun id m hm => ?_, fun e' he' x hx => ?_, fun id hid => ?_,
    fun i next hi => ?_, fun i next hi id hid => ?_, fun i j next hi hj => ?_⟩
  · by_cases hc : WritesQueue id e.cmd
    · rcases hc with ⟨m', hc⟩ | hc
      · exact .inr ⟨e, mem_cons_self, m', hc⟩
      · rw [hc, lookup_delete_queue, if_pos rfl] at hm
        cases hm
    · rw [lookup_queue_of_step hstep hc] at hm
      exact (h.stored id m hm).cons e
  · rcases mem_cons.1 he' with rfl | he'
    · rw [hres] at hx
      exact (h.stored _ _ (lookup_of_recordsIn hx)).cons e'
    · exact (h.read e' he' x hx).cons e
  · rcases hid.of_cons with hid | ⟨m, hm⟩
    · exact (h.bound id hid).trans hcounter
    · rcases hput id m hm with hknown | hdrawn
      · exact (h.bound id hknown).trans hcounter
      · exact (h.drawn _ _ hdrawn).2.1.trans hcounter
  · rcases hi.of_cons with ⟨-, he⟩ | ⟨-, hi⟩
    · obtain ⟨hcmd, hnext, hafter⟩ := hdraw next he
      have hpos := h.counter
      exact ⟨by omega, hafter.ge, hnext ▸ hroom hcmd⟩
    · obtain ⟨h0, hle, hlt⟩ := h.drawn i next hi
      exact ⟨h0, hle.trans hcounter, hlt⟩
  · rcases hi.of_cons with ⟨-, he⟩ | ⟨hwho, hi⟩
    · obtain ⟨hcmd, hnext, -⟩ := hdraw next he
      rcases hid.of_cons with hid | ⟨m, hm⟩
      · have hle := h.bound id hid
        omega
      · rw [hcmd] at hm
        cases hm
    · rcases hid.of_cons with hid | ⟨m, hm⟩
      · exact h.unused i next hi id hid
      · rcases hput id m hm with hknown | hdrawn
        · exact h.unused i next hi id hknown
        · rintro rfl
          exact hwho (h.distinct _ _ _ hdrawn hi)
  · rcases hi.of_cons with ⟨hwho, he⟩ | ⟨-, hi⟩
    · rcases hj.of_cons with ⟨hwho', -⟩ | ⟨-, hj⟩
      · exact hwho.symm.trans hwho'
      · have hnext := (hdraw next he).2.1
        have hle := (h.drawn j next hj).2.1
        omega
    · rcases hj.of_cons with ⟨-, he⟩ | ⟨-, hj⟩
      · have hnext := (hdraw next he).2.1
        have hle := (h.drawn i next hi).2.1
        omega
      · exact h.distinct i j next hi hj

end Ids

end IrixMail.Smtp
