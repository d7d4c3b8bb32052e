import IrixMail.Library.Discipline
import IrixMail.Store.World

/-!
# Histories of the store

What the events of a run say about the records before and after them.
-/

namespace IrixMail.Store
open Library WriteOp List

variable {k : CounterLoc}

theorem counter_le_batch {ops : List WriteOp} (h : ∀ op ∈ ops, op.loc = .counter k → op = .add k 1)
    (s : Records) : s.counter k ≤ (s.batch ops).counter k := by
  induction ops generalizing s with
  | nil => exact le_rfl
  | cons op ops ih =>
    have hops := ih (fun o ho => h o (mem_cons_of_mem _ ho)) (op.apply s)
    refine le_trans ?_ hops
    by_cases hop : op.loc = .counter k
    · rw [h op mem_cons_self hop, counter_apply (additive_add _ _), amountAt_add, if_pos rfl]
      omega
    · unfold Records.counter
      rw [lookup_apply, effect_of_ne hop]

section Histories
variable {ι : Type} {digest : Digest} {past : Past ι} {u w : World}

/-- What is drawn from a counter that only steps up is above what it was and not above
what it is. -/
theorem drawn_of_history (h : History (machine digest) u past w)
    (hsteps : ∀ e ∈ past, ∀ op ∈ e.cmd.writes, op.loc = .counter k → op = .add k 1) :
    u.records.counter k ≤ w.records.counter k ∧ ∀ i v (r : ℤ), ⟨i, v, .addAndGet k 1, r⟩ ∈ past →
      u.records.counter k < r ∧ r ≤ w.records.counter k := by
  induction past generalizing w with
  | nil =>
    obtain rfl : w = u := h
    exact ⟨le_rfl, by simp⟩
  | cons e past ih =>
    obtain ⟨rfl, hres, hpast⟩ := h
    obtain ⟨hle, hdrawn⟩ := ih hpast fun e' he' => hsteps e' (mem_cons_of_mem _ he')
    have hstep : e.before.records.counter k ≤
        (machine digest e.cmd e.before).2.records.counter k := by
      rw [records_machine]
      exact counter_le_batch (fun op hop => hsteps e mem_cons_self op
        (Cmd.writes_of_written hop)) _
    refine ⟨hle.trans hstep, fun i v r hmem => ?_⟩
    rcases mem_cons.1 hmem with rfl | hmem
    · obtain rfl : r = v.records.counter k + 1 := hres
      refine ⟨Int.lt_add_one_of_le hle, ?_⟩
      change _ ≤ (v.records.batch [.add k 1]).counter k
      rw [Records.counter_batch (by simp [WriteOp.Additive])]
      simp [WriteOp.amountAt]
    · exact (hdrawn i v r hmem).imp_right hstep.trans'

theorem drawn_once_of_history (h : History (machine digest) u past w)
    (hsteps : ∀ e ∈ past, ∀ op ∈ e.cmd.writes, op.loc = .counter k → op = .add k 1) {i j : ι}
    {v v' : World} {r : ℤ} (hi : ⟨i, v, .addAndGet k 1, r⟩ ∈ past)
    (hj : ⟨j, v', .addAndGet k 1, r⟩ ∈ past) : i = j := by
  induction past generalizing w with
  | nil => cases hi
  | cons e past ih =>
    obtain ⟨rfl, hres, hpast⟩ := h
    have hpastSteps := fun e' he' => hsteps e' (mem_cons_of_mem e he')
    -- what was drawn before is below what is drawn now
    have hbelow {a b : ι} {x y : World} {z : ℤ}
        (he : (⟨a, x, .addAndGet k 1, z⟩ : Event sig World ι) = e)
        (hpastDraw : ⟨b, y, .addAndGet k 1, z⟩ ∈ past) : False := by
      subst he
      obtain rfl : z = x.records.counter k + 1 := hres
      exact absurd ((drawn_of_history hpast hpastSteps).2 _ _ _ hpastDraw).2 (by simp)
    rcases mem_cons.1 hi with hi | hi <;> rcases mem_cons.1 hj with hj | hj
    · rw [← hj] at hi
      injection hi
    · exact (hbelow hi hj).elim
    · exact (hbelow hj hi).elim
    · exact ih hpast hpastSteps hi hj

theorem written_of_history (h : History (machine digest) u past w) {l : Loc}
    (hne : w.records.lookup l ≠ u.records.lookup l) :
    ∃ e ∈ past, ∃ op ∈ e.cmd.written e.res, op.loc = l := by
  induction past generalizing w with
  | nil =>
    obtain rfl : w = u := h
    exact absurd rfl hne
  | cons e past ih =>
    obtain ⟨rfl, hres, hpast⟩ := h
    by_cases hsame : e.before.records.lookup l = u.records.lookup l
    · by_contra hnone
      refine hne (Eq.trans (lookup_machine_of_ne digest fun op hop hloc => hnone ?_) hsame)
      exact ⟨e, mem_cons_self, op, hres ▸ hop, hloc⟩
    · obtain ⟨e', he', hop⟩ := ih hpast hsame
      exact ⟨e', mem_cons_of_mem _ he', hop⟩

end Histories

theorem obeys_caught {α : Type} {guard : Trace sig → Cmd → Prop} {E : Trace sig → Prop}
    {Q : Trace sig → α → Prop} {t : Trace sig} {p : Action α} (hp : Prog.Obeys guard E Q t p) :
    Prog.Obeys guard E (fun v r => (∀ a, r = .ok a → Q v a) ∧ ∀ e, r = .error e → E v) t
      (caught p) := by
  refine hp.attempt.bind fun v r hr => ?_
  split
  next => exact .fail (hr.2 _ rfl)
  next => exact .ret hr

/-! ## Reads that are not stale -/

def isBatch : Cmd → Bool
  | .batch _ => true
  | _ => false

/-- The value was read at the location. -/
def Got (l : Loc) (x : Option (Val l)) (t : Trace sig) : Prop :=
  (⟨.get l, x⟩ : Access) ∈ t

section Stale
variable {ι : Type} [DecidableEq ι]

def StillHolds (P : Loc → Prop) (w : World) : Access → Prop
  | ⟨.get l, x⟩ => P l → w.records.lookup l = x
  | _ => True

def readAt : Access → Option (Σ l : Loc, Option (Val l))
  | ⟨.get l, x⟩ => some ⟨l, x⟩
  | _ => none

instance StillHolds.decidable (P : Loc → Prop) [DecidablePred P] (w : World) (x : Access) :
    Decidable (StillHolds P w x) :=
  decidable_of_iff (∀ y ∈ readAt x, P y.1 → w.records.lookup y.1 = y.2) <| by
    obtain ⟨c, r⟩ := x
    cases c <;> simp [readAt, StillHolds]

/-- What the thread has read at the locations of `P` is still there. -/
def Unchanged (P : Loc → Prop) (e : Event sig World ι) (past : Past ι) : Prop :=
  ∀ x ∈ traceOf e.who past, StillHolds P e.before x

instance Unchanged.decidable (P : Loc → Prop) [DecidablePred P] (e : Event sig World ι)
    (past : Past ι) : Decidable (Unchanged P e past) :=
  inferInstanceAs (Decidable (∀ x ∈ traceOf e.who past, StillHolds P e.before x))

theorem Unchanged.lookup_eq {P : Loc → Prop} {e : Event sig World ι}
    {past : Past ι} (h : Unchanged P e past) {l : Loc} (hl : P l)
    {x : Option (Val l)} (hgot : Got l x (traceOf e.who past)) :
    e.before.records.lookup l = x := h _ hgot hl

end Stale
end IrixMail.Store
