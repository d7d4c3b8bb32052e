import IrixMail.Library.Prog

/-!
# Interleavings of programs

A pool is a machine state with a family of programs that take turns on it, one
command at a time. A schedule is the list of the threads whose turn it is; every
interleaving is a schedule. The pool keeps the events of its past, newest first,
each with the state it found, so that conditions on a run ("this command comes
only when ...") and properties of a run are both statements about events and
their past.
-/

namespace Library
variable {S : Sig} {σ ι α : Type}

structure Event (S : Sig) (σ ι : Type) where
  who : ι
  before : σ
  cmd : S.Cmd
  res : S.Res cmd

structure Pool (S : Sig) (σ ι α : Type) where
  state : σ
  thread : ι → Prog S α
  past : List (Event S σ ι)

def Always (C : Event S σ ι → List (Event S σ ι) → Prop) : List (Event S σ ι) → Prop
  | [] => True
  | e :: t => C e t ∧ Always C t

instance Always.decidable {C : Event S σ ι → List (Event S σ ι) → Prop}
    [∀ e t, Decidable (C e t)] : (t : List (Event S σ ι)) → Decidable (Always C t)
  | [] => .isTrue trivial
  | e :: t => @instDecidableAnd (C e t) (Always C t) _ (Always.decidable t)

theorem Always.of_append {C : Event S σ ι → List (Event S σ ι) → Prop}
    {t u : List (Event S σ ι)} (h : Always C (t ++ u)) : Always C u := by
  induction t with
  | nil => exact h
  | cons e t ih => exact ih h.2

namespace Pool
variable [DecidableEq ι] (m : Machine S σ)

/-- Thread `i` takes its turn. A thread that has ended does nothing. -/
def step (p : Pool S σ ι α) (i : ι) : Pool S σ ι α :=
  match p.thread i with
  | .ret _ => p
  | .fail _ => p
  | .call c k =>
    { state := (m c p.state).2
      thread := Function.update p.thread i (k (.ok (m c p.state).1))
      past := ⟨i, p.state, c, (m c p.state).1⟩ :: p.past }

def run (p : Pool S σ ι α) (schedule : List ι) : Pool S σ ι α := schedule.foldl (step m) p

@[simp] theorem run_nil (p : Pool S σ ι α) : p.run m [] = p := rfl
@[simp] theorem run_cons (p : Pool S σ ι α) (i : ι) (is : List ι) :
    p.run m (i :: is) = (p.step m i).run m is := rfl

theorem run_append (p : Pool S σ ι α) (is js : List ι) :
    p.run m (is ++ js) = (p.run m is).run m js := List.foldl_append

def start (s : σ) (thread : ι → Prog S α) : Pool S σ ι α := ⟨s, thread, []⟩

def Ended (p : Pool S σ ι α) (i : ι) : Prop :=
  (∃ a, p.thread i = .ret a) ∨ ∃ e, p.thread i = .fail e

def Finished (p : Pool S σ ι α) : Prop := ∀ i, p.Ended i

variable {i j : ι} {p : Pool S σ ι α} {P : α → Prop} {quiet : S.Cmd → Prop}

theorem step_call {c : S.Cmd}
    {k : Except S.Err (S.Res c) → Prog S α} (h : p.thread i = .call c k) :
    p.step m i =
      { state := (m c p.state).2
        thread := Function.update p.thread i (k (.ok (m c p.state).1))
        past := ⟨i, p.state, c, (m c p.state).1⟩ :: p.past } := by
  simp only [step, h]

theorem step_ended (h : p.Ended i) : p.step m i = p := by
  rcases h with ⟨a, h⟩ | ⟨e, h⟩ <;> simp only [step, h]

theorem step_cases (p : Pool S σ ι α) (i : ι) :
    p.step m i = p ∨ ∃ (c : S.Cmd) (k : Except S.Err (S.Res c) → Prog S α), p.thread i = .call c k := by
  cases h : p.thread i with
  | ret a => exact .inl (step_ended m (.inl ⟨a, h⟩))
  | fail e => exact .inl (step_ended m (.inr ⟨e, h⟩))
  | call c k => exact .inr ⟨c, k, rfl⟩

theorem past_step (p : Pool S σ ι α) (i : ι) : ∃ t, (p.step m i).past = t ++ p.past := by
  rcases step_cases m p i with h | ⟨c, k, h⟩
  · exact ⟨[], by rw [h]; rfl⟩
  · exact ⟨[_], by rw [step_call m h]; rfl⟩

theorem past_run (p : Pool S σ ι α) (is : List ι) : ∃ t, (p.run m is).past = t ++ p.past := by
  induction is generalizing p with
  | nil => exact ⟨[], rfl⟩
  | cons i is ih =>
    obtain ⟨t, ht⟩ := ih (p.step m i)
    obtain ⟨u, hu⟩ := past_step m p i
    exact ⟨t ++ u, by rw [run_cons, ht, hu, List.append_assoc]⟩

theorem thread_run_of_not_mem {is : List ι} (h : j ∉ is) :
    (p.run m is).thread j = p.thread j := by
  induction is generalizing p with
  | nil => rfl
  | cons i is ih =>
    have hne : j ≠ i := fun he => h (he ▸ List.mem_cons_self)
    rw [run_cons, ih fun hrest => h (List.mem_cons_of_mem i hrest)]
    rcases step_cases m p i with hsame | ⟨c, k, hthread⟩
    · rw [hsame]
    · rw [step_call m hthread]
      exact Function.update_of_ne hne _ _

theorem thread_run_of_ret {a : α} (h : p.thread j = .ret a)
    (is : List ι) : (p.run m is).thread j = .ret a := by
  induction is generalizing p with
  | nil => exact h
  | cons i is ih =>
    refine ih ?_
    by_cases hij : i = j
    · subst hij
      rw [step_ended m (.inl ⟨a, h⟩)]
      exact h
    · rw [← h]
      have hturn : j ∉ [i] := by simpa using Ne.symm hij
      exact thread_run_of_not_mem m hturn

/-- A program that returns on its own returns in every interleaving. -/
theorem yields_run (h : ∀ i, Prog.Yields quiet P (p.thread i)) (is : List ι) (i : ι) :
    Prog.Yields quiet P ((p.run m is).thread i) := by
  induction is generalizing p with
  | nil => exact h i
  | cons j is ih =>
    refine ih fun k => ?_
    rcases step_cases m p j with hsame | ⟨c, next, hthread⟩
    · rw [hsame]
      exact h k
    · rw [step_call m hthread]
      dsimp only
      by_cases hk : k = j
      · subst hk
        rw [Function.update_self]
        have hcall := h k
        rw [hthread] at hcall
        cases hcall with
        | here hs =>
          obtain ⟨_, hret, -⟩ := hs
          cases hret
        | call _ hnext => exact hnext _
      · rw [Function.update_of_ne hk]
        exact h k

omit [DecidableEq ι] in
theorem returned_of_ended (h : Prog.Yields quiet P (p.thread i)) (hend : p.Ended i) :
    ∃ a, p.thread i = .ret a ∧ P a := by
  rcases hend with ⟨b, hret⟩ | ⟨e, hfail⟩
  · rw [hret] at h
    cases h with
    | here hs =>
      obtain ⟨a, hb, ha⟩ := hs
      exact ⟨a, hret.trans hb, ha⟩
  · rw [hfail] at h
    cases h with
    | here hs =>
      obtain ⟨a, ha, -⟩ := hs
      cases ha

end Pool
end Library
