import IrixMail.Core.Id

/-!
# Calls of the generator that overlap

The calls share the word of the generator. Each loads it, and then tries to exchange it
for the next slot until no other call has come between; the exchange may also fail
without a reason. Slots grow with every exchange that succeeds, and so do the ids as
long as the millisecond count has room above the node number.
-/

namespace IrixMail.IdGenerator

variable {ι : Type} [DecidableEq ι]

/-- The word that each call has loaded, and the ids returned so far, newest first. -/
structure Calls (ι : Type) where
  generator : IdGenerator
  loaded : ι → Option UInt64
  returned : List UInt64

inductive CallStep (ι : Type)
  | load (i : ι)
  | exchange (i : ι) (spurious : Bool)

namespace Calls

def start (g : IdGenerator) : Calls ι := ⟨g, fun _ => none, []⟩

/-- One step of a call, with the clock reading that each call has begun with. -/
def step (clock : ι → UInt64) (s : Calls ι) : CallStep ι → Calls ι
  | .load i => { s with loaded := Function.update s.loaded i (some s.generator.last) }
  | .exchange i spurious =>
    match s.loaded i with
    | none => s
    | some previous =>
      if s.generator.last = previous ∧ spurious = false then
        let (id, g) := { s.generator with last := previous }.generate (clock i)
        ⟨g, Function.update s.loaded i none, id :: s.returned⟩
      else { s with loaded := Function.update s.loaded i (some s.generator.last) }

def run (clock : ι → UInt64) (s : Calls ι) (steps : List (CallStep ι)) : Calls ι :=
  steps.foldl (step clock) s

theorem step_cases (clock : ι → UInt64) (s : Calls ι) (e : CallStep ι) :
    (step clock s e).generator = s.generator ∧ (step clock s e).returned = s.returned ∨
      ∃ i, (step clock s e).generator = (s.generator.generate (clock i)).2 ∧
        (step clock s e).returned = (s.generator.generate (clock i)).1 :: s.returned := by
  cases e with
  | load i => exact .inl ⟨rfl, rfl⟩
  | exchange i spurious =>
    unfold step
    dsimp only
    split
    next => exact .inl ⟨rfl, rfl⟩
    next previous _ =>
      split
      next h =>
        obtain ⟨rfl, -⟩ := h
        exact .inr ⟨i, rfl, rfl⟩
      next => exact .inl ⟨rfl, rfl⟩

end Calls

/-! ## Slots and ids -/

/-- The id of a slot whose millisecond count fits. -/
def idOf (node slot : ℕ) : ℕ := slot / 2 ^ 12 * 2 ^ 22 + node * 2 ^ 12 + slot % 2 ^ 12

theorem idOf_lt (node : ℕ) {slot slot' : ℕ} (h : slot < slot') :
    idOf node slot < idOf node slot' := by
  unfold idOf
  omega

theorem toNat_generate_eq_idOf (g : IdGenerator) (nowMs : UInt64)
    (h : issueSlot nowMs.toNat g.last.toNat < 2 ^ 54) :
    (g.generate nowMs).1.toNat = idOf g.node.toNat (issueSlot nowMs.toNat g.last.toNat) := by
  have hseq := snd_advance_lt nowMs g.last
  have hnode := g.node_lt
  rw [← toNat_slotOf_advance, toNat_slotOf hseq] at h ⊢
  rw [toNat_generate]
  unfold idOf
  omega

/-- The id of the word. -/
def latest (g : IdGenerator) : ℕ := idOf g.node.toNat g.last.toNat

theorem latest_lt_generate {g : IdGenerator} {nowMs : UInt64}
    (hnow : nowMs.toNat * 2 ^ 12 < 2 ^ 54) (hlast : g.last.toNat + 1 < 2 ^ 54) :
    latest g < latest (g.generate nowMs).2 ∧
      (g.generate nowMs).1.toNat = latest (g.generate nowMs).2 := by
  have hslot : g.last.toNat < issueSlot nowMs.toNat g.last.toNat ∧
      issueSlot nowMs.toNat g.last.toNat < 2 ^ 54 := by
    unfold issueSlot
    omega
  rw [toNat_generate_eq_idOf g nowMs hslot.2, latest, latest, last_generate]
  exact ⟨idOf_lt _ hslot.1, rfl⟩

/-! ## Runs -/

namespace Calls

/-- Each id is larger than those before it, and the next one will be. -/
def Rising (s : Calls ι) : Prop :=
  ((latest s.generator + 1) :: s.returned.map UInt64.toNat).Pairwise (· > ·)

variable {clock : ι → UInt64} {s : Calls ι} {n : ℕ}

theorem Rising.step (h : Rising s) (hlast : s.generator.last.toNat + 1 < 2 ^ 54)
    (hclock : ∀ i, (clock i).toNat * 2 ^ 12 < 2 ^ 54) (e : CallStep ι) :
    Rising (step clock s e) := by
  unfold Rising
  rcases step_cases clock s e with ⟨hgenerator, hreturned⟩ | ⟨i, hgenerator, hreturned⟩
  · rw [hgenerator, hreturned]
    exact h
  · obtain ⟨hlt, hid⟩ := latest_lt_generate (hclock i) hlast
    obtain ⟨hbelow, hpast⟩ := List.pairwise_cons.1 h
    rw [hgenerator, hreturned, List.map_cons, hid]
    have hlater : ∀ x ∈ s.returned.map UInt64.toNat,
        x < latest (s.generator.generate (clock i)).2 := fun x hx => by
      have := hbelow x hx
      omega
    exact .cons (List.forall_mem_cons.2 ⟨Nat.lt_succ_self _,
      fun x hx => (hlater x hx).trans (Nat.lt_succ_self _)⟩) (.cons hlater hpast)

theorem last_step (hlast : s.generator.last.toNat + (n + 1) < 2 ^ 54)
    (hclock : ∀ i, (clock i).toNat * 2 ^ 12 + (n + 1) < 2 ^ 54) (e : CallStep ι) :
    (step clock s e).generator.last.toNat + n < 2 ^ 54 := by
  rcases step_cases clock s e with ⟨hgenerator, -⟩ | ⟨i, hgenerator, -⟩
  · rw [hgenerator]
    omega
  · have hnow := hclock i
    rw [hgenerator, last_generate, issueSlot]
    omega

theorem Rising.run {steps : List (CallStep ι)} (h : Rising s)
    (hlast : s.generator.last.toNat + steps.length < 2 ^ 54)
    (hclock : ∀ i, (clock i).toNat * 2 ^ 12 + steps.length < 2 ^ 54) :
    Rising (run clock s steps) := by
  induction steps generalizing s with
  | nil => exact h
  | cons e steps ih =>
    rw [List.length_cons] at hlast hclock
    refine ih (h.step ?_ (fun i => ?_) e) (last_step hlast hclock e) fun i => ?_
    · omega
    · exact (Nat.le_add_right _ _).trans_lt (hclock i)
    · exact (Nat.lt_succ_self _).trans (hclock i)

/-- In every run of overlapping calls whose millisecond counts fit, each id that is
returned is larger than all that were returned before. -/
theorem ids_increase (g : IdGenerator) (clock : ι → UInt64) (steps : List (CallStep ι))
    (hlast : g.last.toNat + steps.length < 2 ^ 54)
    (hclock : ∀ i, (clock i).toNat * 2 ^ 12 + steps.length < 2 ^ 54) :
    ((run clock (start g) steps).returned.map UInt64.toNat).Pairwise (· > ·) := by
  have hstart : Rising (start g : Calls ι) := List.pairwise_singleton _ _
  exact (List.pairwise_cons.1 (hstart.run hlast hclock)).2

def inTurn : List (CallStep Bool) :=
  [.load false, .exchange false false, .load true, .exchange true false]

theorem ids_increase_stoppedClock :
    (run (fun _ => 5) (start (new 0)) inTurn).returned = [20971521, 20971520] ∧
      ((run (fun _ => 5) (start (new 0)) inTurn).returned.map UInt64.toNat).Pairwise (· > ·) :=
  ⟨by decide, ids_increase (new 0) (fun _ => 5) inTurn (by decide) (by decide)⟩

/-- Of a clock reading beyond 42 bits the id keeps nothing. -/
theorem ids_decrease_farClock :
    (run (fun i => if i then 2 ^ 42 else 0) (start (new 0)) inTurn).returned = [0, 1] := by
  decide

end Calls
end IrixMail.IdGenerator
