import IrixMail.Library.Discipline
import Mathlib.Data.List.Dedup
import Mathlib.Data.List.Perm.Basic

/-!
# Calls in sequence

Each call maps a state to the next one, or does not apply to it. A sequence of
calls leads from a state to another and passes the states in between. A call
that changes nothing at a state that is passed can be put into the sequence
there.

In an interleaving of threads, the part of the state that `obs` shows may change
only when a thread takes effect. When every thread does so at most once, and then
as its call would on what it finds, the threads are in sequence.
-/

namespace Library.Serial
open List
variable {ι X : Type} {app : ι → X → Option X}

inductive Leads (app : ι → X → Option X) : X → List ι → X → Prop
  | nil (x : X) : Leads app x [] x
  | cons {x y z : X} {i : ι} {L : List ι} :
      app i x = some y → Leads app y L z → Leads app x (i :: L) z

inductive Passes (app : ι → X → Option X) : X → List ι → X → Prop
  | here (x : X) (L : List ι) : Passes app x L x
  | later {x y z : X} {i : ι} {L : List ι} :
      app i x = some y → Passes app y L z → Passes app x (i :: L) z

theorem Leads.concat {x y z : X} {i : ι} {L : List ι} (h : Leads app x L y)
    (hi : app i y = some z) : Leads app x (L ++ [i]) z := by
  induction h with
  | nil x => exact .cons hi (.nil z)
  | cons hj _ ih => exact .cons hj (ih hi)

theorem Leads.passes {x y : X} {L : List ι} (h : Leads app x L y) : Passes app x L y := by
  induction h with
  | nil x => exact .here x []
  | cons hj _ ih => exact .later hj ih

theorem Passes.append {x z : X} {L : List ι} (h : Passes app x L z) (L' : List ι) :
    Passes app x (L ++ L') z := by
  induction h with
  | here x L => exact .here x _
  | later hj _ ih => exact .later hj ih

/-- The call goes where its state is passed, and nothing else moves. -/
theorem Leads.insert {x y z : X} {j : ι} {L : List ι} (h : Leads app x L y)
    (hz : Passes app x L z) (hj : app j z = some z) :
    ∃ L', Leads app x L' y ∧ L'.Perm (j :: L) ∧ ∀ u, Passes app x L u → Passes app x L' u := by
  induction hz with
  | here x L => exact ⟨j :: L, .cons hj h, .refl _, fun u hu => .later hj hu⟩
  | @later x x' z i L hi _ ih =>
    cases h with
    | cons hi' h =>
      obtain rfl := Option.some.inj (hi.symm.trans hi')
      obtain ⟨L', hL', hperm, hpass⟩ := ih h hj
      refine ⟨i :: L', .cons hi hL', (hperm.cons i).trans (.swap j i L), fun u hu => ?_⟩
      cases hu with
      | here => exact .here _ _
      | later hi'' hu =>
        obtain rfl := Option.some.inj (hi.symm.trans hi'')
        exact .later hi (hpass u hu)

theorem Leads.insert_all {x y : X} {L : List ι} (js : List ι) (h : Leads app x L y)
    (hjs : ∀ j ∈ js, ∃ z, Passes app x L z ∧ app j z = some z) :
    ∃ L', Leads app x L' y ∧ L'.Perm (js ++ L) := by
  induction js generalizing L with
  | nil => exact ⟨L, h, .refl _⟩
  | cons j js ih =>
    obtain ⟨z, hz, hj⟩ := hjs j mem_cons_self
    obtain ⟨L', hL', hperm, hpass⟩ := h.insert hz hj
    obtain ⟨L'', hL'', hperm'⟩ := ih hL' fun k hk => by
      obtain ⟨u, hu, hku⟩ := hjs k (mem_cons_of_mem _ hk)
      exact ⟨u, hpass u hu, hku⟩
    refine ⟨L'', hL'', hperm'.trans ((hperm.append_left js).trans ?_)⟩
    exact perm_middle

/-- After a call that only leads to `z`, where no call applies, nothing follows. -/
theorem Leads.absorbed {x y z : X} {i : ι} {L : List ι} (h : Leads app x L y) (hmem : i ∈ L)
    (hi : ∀ u v, app i u = some v → v = z) (hz : ∀ j, app j z = none) : y = z := by
  induction h with
  | nil x => cases hmem
  | @cons x x' y j L hj h ih =>
    rcases mem_cons.1 hmem with rfl | hmem
    · obtain rfl := hi x x' hj
      cases h with
      | nil => rfl
      | @cons _ _ _ k _ hk _ => exact absurd (hk.symm.trans (hz k)) nofun
    · exact ih hmem

/-- What every call of the sequence keeps, holds at the end. -/
theorem Leads.invariant {x y : X} {L : List ι} {P : X → Prop} (h : Leads app x L y) (hx : P x)
    (hstep : ∀ i ∈ L, ∀ u v, app i u = some v → P u → P v) : P y := by
  induction h with
  | nil x => exact hx
  | @cons x x' y i L hi _ ih =>
    refine ih (hstep i mem_cons_self x x' hi hx) fun j hj => ?_
    exact hstep j (mem_cons_of_mem _ hj)

/-- What a call of the sequence brings about and every call keeps, holds at the end. -/
theorem Leads.after {x y : X} {L : List ι} {P : X → Prop} {i : ι} (h : Leads app x L y)
    (hmem : i ∈ L) (hi : ∀ u v, app i u = some v → P v)
    (hstep : ∀ j ∈ L, ∀ u v, app j u = some v → P u → P v) : P y := by
  induction h with
  | nil x => cases hmem
  | @cons x x' y j L hj hrest ih =>
    have hkeep : ∀ k ∈ L, ∀ u v, app k u = some v → P u → P v :=
      fun k hk => hstep k (mem_cons_of_mem _ hk)
    rcases mem_cons.1 hmem with rfl | hmem
    · exact hrest.invariant (hi x x' hj) hkeep
    · exact ih hmem hkeep

/-- Calls that each use up some of a supply that no call adds to. -/
theorem Leads.countP_le {x y : X} {L : List ι} (h : Leads app x L y) (supply : X → ℕ)
    (uses : ι → Bool)
    (hstep : ∀ i ∈ L, ∀ u v, app i u = some v → supply v + (uses i).toNat ≤ supply u) :
    L.countP uses ≤ supply x := by
  induction h with
  | nil x => simp
  | @cons x x' y i L hi _ ih =>
    have hfirst := hstep i mem_cons_self x x' hi
    have hrest := ih fun j hj => hstep j (mem_cons_of_mem _ hj)
    rw [countP_cons]
    cases hu : uses i with
    | false =>
      simp only [Bool.false_eq_true, if_false]
      omega
    | true =>
      rw [hu, Bool.toNat_true] at hfirst
      simp only [if_true]
      omega

/-! ## Threads that take effect at once -/

variable {S : Sig} {σ : Type} (m : Machine S σ) (obs : σ → X) (app : ι → X → Option X)
  (effective : Event S σ ι → Prop)

structure AtOnce (e : Event S σ ι) (past : List (Event S σ ι)) : Prop where
  applies : effective e → app e.who (obs e.before) = some (obs (m e.cmd e.before).2)
  still : ¬ effective e → obs (m e.cmd e.before).2 = obs e.before
  once : effective e → ∀ x ∈ past, effective x → x.who ≠ e.who

def Took (past : List (Event S σ ι)) (i : ι) : Prop := ∃ e ∈ past, effective e ∧ e.who = i

theorem took_cons {e : Event S σ ι} {past : List (Event S σ ι)} {i : ι} :
    Took effective (e :: past) i ↔ (effective e ∧ e.who = i) ∨ Took effective past i := by
  simp [Took]

structure InOrder (s₀ : σ) (past : List (Event S σ ι)) (s : σ) (L : List ι) : Prop where
  nodup : L.Nodup
  mem : ∀ i, i ∈ L ↔ Took effective past i
  leads : Leads app (obs s₀) L (obs s)
  passes : ∀ e ∈ past, Passes app (obs s₀) L (obs e.before)

theorem InOrder.step {s₀ : σ} {e : Event S σ ι} {past : List (Event S σ ι)} {L : List ι}
    (h : InOrder obs app effective s₀ past e.before L) (he : AtOnce m obs app effective e past) :
    ∃ L', InOrder obs app effective s₀ (e :: past) (m e.cmd e.before).2 L' := by
  by_cases heff : effective e
  · have hnew : e.who ∉ L := fun hmem => by
      obtain ⟨x, hx, hxe, hwho⟩ := (h.mem e.who).1 hmem
      exact he.once heff x hx hxe hwho
    refine ⟨L ++ [e.who], ?_, fun i => ?_, h.leads.concat (he.applies heff), fun x hx => ?_⟩
    · refine nodup_append.2 ⟨h.nodup, nodup_singleton _, ?_⟩
      rintro i hi j hj rfl
      exact hnew (mem_singleton.1 hj ▸ hi)
    · rw [mem_append, mem_singleton, h.mem i, took_cons]
      constructor
      · rintro (hi | rfl)
        · exact .inr hi
        · exact .inl ⟨heff, rfl⟩
      · rintro (⟨-, rfl⟩ | hi)
        · exact .inr rfl
        · exact .inl hi
    · refine Passes.append ?_ _
      rcases mem_cons.1 hx with rfl | hx
      · exact h.leads.passes
      · exact h.passes x hx
  · refine ⟨L, h.nodup, fun i => ?_, (he.still heff).symm ▸ h.leads, fun x hx => ?_⟩
    · rw [h.mem i, took_cons]
      exact ⟨.inr, fun hi => hi.resolve_left fun hi => heff hi.1⟩
    · rcases mem_cons.1 hx with rfl | hx
      · exact h.leads.passes
      · exact h.passes x hx

theorem exists_inOrder {s₀ s : σ} {past : List (Event S σ ι)} (hpast : History m s₀ past s)
    (h : Always (AtOnce m obs app effective) past) :
    ∃ L, InOrder obs app effective s₀ past s L := by
  refine hpast.invariant m (I := fun past s => ∃ L, InOrder obs app effective s₀ past s L) h ?_ ?_
  · exact ⟨[], nodup_nil, by simp [Took], .nil _, by simp⟩
  · rintro e t - - he - ⟨L, hL⟩
    exact hL.step m obs app effective he

open Classical in
/-- The calls of `done` are in sequence: those that took effect in the order in
which they did, the others where they found what they leave as it is. -/
theorem exists_serial {s₀ s : σ} {past : List (Event S σ ι)} (hpast : History m s₀ past s)
    (h : Always (AtOnce m obs app effective) past) (done : ι → Prop)
    (htook : ∀ i, Took effective past i → done i)
    (hkept : ∀ i, done i → ¬ Took effective past i →
      ∃ e ∈ past, e.who = i ∧ app i (obs e.before) = some (obs e.before)) :
    ∃ L : List ι, L.Nodup ∧ (∀ i, i ∈ L ↔ done i) ∧ Leads app (obs s₀) L (obs s) := by
  obtain ⟨L, hL⟩ := exists_inOrder m obs app effective hpast h
  let kept : List ι :=
    (past.map Event.who).dedup.filter fun i => done i ∧ ¬ Took effective past i
  have hmem (i : ι) : i ∈ kept ↔ done i ∧ ¬ Took effective past i := by
    simp only [kept, mem_filter, mem_dedup, mem_map, decide_eq_true_eq,
      and_iff_right_iff_imp]
    rintro ⟨hdone, hnot⟩
    obtain ⟨e, he, hwho, -⟩ := hkept i hdone hnot
    exact ⟨e, he, hwho⟩
  obtain ⟨L', hleads, hperm⟩ := hL.leads.insert_all kept fun j hj => by
    obtain ⟨hdone, hnot⟩ := (hmem j).1 hj
    obtain ⟨e, he, -, happ⟩ := hkept j hdone hnot
    exact ⟨obs e.before, hL.passes e he, happ⟩
  refine ⟨L', ?_, fun i => ?_, hleads⟩
  · refine hperm.nodup_iff.2 (nodup_append.2 ⟨(nodup_dedup _).filter _, hL.nodup, ?_⟩)
    rintro i hi j hj rfl
    exact ((hmem i).1 hi).2 ((hL.mem i).1 hj)
  · rw [hperm.mem_iff, mem_append, hmem i, hL.mem i]
    by_cases hi : Took effective past i
    · simp [hi, htook i hi]
    · simp [hi]

end Library.Serial
