import IrixMail.Library.Discipline

/-!
# Commands that fail

A command may also fail: nothing happens, and the program goes on with the error.
`Heeds` is `Obeys` for programs that are told of errors as well; a command that
failed leaves no mark on the trace. `Pool.runFaulty` lets every turn be a command
that is performed or one that fails.
-/

namespace Library
open List
variable {S : Sig} {σ ι α β : Type}

def Extends (calm : S.Cmd → Prop) (t u : Trace S) : Prop :=
  ∃ v : Trace S, (∀ x ∈ v, calm x.1) ∧ u = v ++ t

namespace Extends
variable {calm : S.Cmd → Prop} {t u v : Trace S}

theorem refl (t : Trace S) : Extends calm t t := ⟨[], by simp, rfl⟩

theorem trans (h : Extends calm t u) (h' : Extends calm u v) : Extends calm t v := by
  obtain ⟨a, ha, rfl⟩ := h
  obtain ⟨b, hb, rfl⟩ := h'
  exact ⟨b ++ a, forall_mem_append.2 ⟨hb, ha⟩, (append_assoc b a t).symm⟩

theorem cons {c : S.Cmd} (hc : calm c) (r : S.Res c) (t : Trace S) :
    Extends calm t (⟨c, r⟩ :: t) :=
  ⟨[⟨c, r⟩], by simpa using hc, rfl⟩

theorem mono {calm' : S.Cmd → Prop} (h : Extends calm t u) (hcalm : ∀ c, calm c → calm' c) :
    Extends calm' t u := by
  obtain ⟨a, ha, rfl⟩ := h
  exact ⟨a, fun x hx => hcalm _ (ha x hx), rfl⟩

theorem subset (h : Extends calm t u) : t ⊆ u := by
  obtain ⟨a, -, rfl⟩ := h
  exact subset_append_right a t

theorem mem_of_not_calm (h : Extends calm t u) {x : Σ c : S.Cmd, S.Res c} (hx : x ∈ u)
    (hcalm : ¬ calm x.1) : x ∈ t := by
  obtain ⟨a, ha, rfl⟩ := h
  rcases mem_append.1 hx with hx | hx
  · exact absurd (ha x hx) hcalm
  · exact hx

end Extends

/-- What was done of the commands of an execution, oldest first. -/
def performed : List (Σ c : S.Cmd, Except S.Err (S.Res c)) → Trace S
  | [] => []
  | ⟨c, .ok r⟩ :: u => ⟨c, r⟩ :: performed u
  | ⟨_, .error _⟩ :: u => performed u

theorem mem_performed {u : List (Σ c : S.Cmd, Except S.Err (S.Res c))} {c : S.Cmd} {r : S.Res c} :
    (⟨c, r⟩ : Σ c : S.Cmd, S.Res c) ∈ performed u ↔
      (⟨c, .ok r⟩ : Σ c : S.Cmd, Except S.Err (S.Res c)) ∈ u := by
  induction u with
  | nil => simp [performed]
  | cons x u ih =>
    obtain ⟨c', r' | r'⟩ := x
    · simp only [performed, ih, mem_cons, Sigma.mk.injEq]
      refine ⟨.inr, fun h => h.resolve_left ?_⟩
      rintro ⟨rfl, h⟩
      cases h
    · simp only [performed, ih, mem_cons, Sigma.mk.injEq]
      refine or_congr_left ⟨?_, ?_⟩
      · rintro ⟨rfl, h⟩
        cases h
        exact ⟨rfl, .rfl⟩
      · rintro ⟨rfl, h⟩
        cases h
        exact ⟨rfl, .rfl⟩

namespace Prog

inductive Heeds (guard : Trace S → S.Cmd → Prop) (E : Trace S → Prop) (Q : Trace S → α → Prop) :
    Trace S → Prog S α → Prop
  | ret {t : Trace S} {a : α} : Q t a → Heeds guard E Q t (.ret a)
  | fail {t : Trace S} {e : S.Err} : E t → Heeds guard E Q t (.fail e)
  | call {t : Trace S} {c : S.Cmd} {k : Except S.Err (S.Res c) → Prog S α} :
      guard t c → (∀ r, Heeds guard E Q (⟨c, r⟩ :: t) (k (.ok r))) →
      (∀ e, Heeds guard E Q t (k (.error e))) → Heeds guard E Q t (.call c k)

section
variable {guard : Trace S → S.Cmd → Prop} {E : Trace S → Prop} {Q : Trace S → α → Prop}
  {R : Trace S → β → Prop}

namespace Heeds

variable {p : Prog S α}

theorem bind {t : Trace S} {f : α → Prog S β} (hp : Heeds guard E Q t p)
    (hf : ∀ u a, Q u a → Heeds guard E R u (f a)) : Heeds guard E R t (p >>= f) := by
  induction hp with
  | ret h => exact hf _ _ h
  | fail h => exact .fail h
  | call hc _ _ ih ihe => exact .call hc ih ihe

theorem perform {t : Trace S} {c : S.Cmd} {f : S.Res c → Prog S β} (hc : guard t c) (hE : E t)
    (hf : ∀ r, Heeds guard E R (⟨c, r⟩ :: t) (f r)) :
    Heeds guard E R t (Prog.perform c >>= f) := by
  exact .call hc hf fun _ => .fail hE

theorem mono {E' : Trace S → Prop} {Q' : Trace S → α → Prop} {t : Trace S}
    (hp : Heeds guard E Q t p) (hE : ∀ u, E u → E' u) (h : ∀ u a, Q u a → Q' u a) :
    Heeds guard E' Q' t p := by
  induction hp with
  | ret hq => exact .ret (h _ _ hq)
  | fail he => exact .fail (hE _ he)
  | call hc _ _ ih ihe => exact .call hc ih ihe

/-- A caught error is an answer like others. -/
theorem attempt {Q' : Trace S → Except S.Err α → Prop} {t : Trace S} (hp : Heeds guard E Q t p)
    (hok : ∀ u a, Q u a → Q' u (.ok a))
    (herror : ∀ u e, E u → Q' u (.error e)) : Heeds guard E Q' t p.attempt := by
  induction hp with
  | ret h => exact .ret (hok _ _ h)
  | fail h => exact .ret (herror _ _ h)
  | call hc _ _ ih ihe => exact .call hc ih ihe

theorem weaken {guard' : Trace S → S.Cmd → Prop} {t : Trace S} (hp : Heeds guard E Q t p)
    (h : ∀ u c, guard u c → guard' u c) : Heeds guard' E Q t p := by
  induction hp with
  | ret hq => exact .ret hq
  | fail he => exact .fail he
  | call hc _ _ ih ihe => exact .call (h _ _ hc) ih ihe

/-- Against any environment. -/
theorem exec {t : Trace S} (hp : Heeds guard E Q t p)
    {u : List (Σ c : S.Cmd, Except S.Err (S.Res c))} {a : α} (h : Exec p u (.ok a)) :
    Q ((performed u).reverse ++ t) a := by
  induction hp generalizing u with
  | ret hq =>
    cases h
    exact hq
  | fail => cases h
  | @call t c k _ _ _ ih ihe =>
    cases h with
    | @call _ _ r u _ h =>
      cases r with
      | error e =>
        have hrest := ihe e h
        exact hrest
      | ok r =>
        have hrest := ih r h
        rwa [performed, reverse_cons, append_assoc, singleton_append]

theorem obeys {t : Trace S} (hp : Heeds guard E Q t p) : Obeys guard E Q t p := by
  induction hp with
  | ret h => exact .ret h
  | fail h => exact .fail h
  | call hc _ _ ih _ => exact .call hc ih

end Heeds

/-- From the trace `t` on, the program issues only calm commands that the guard
allows, and what it returns has `Q`. -/
def Brings (guard : Trace S → S.Cmd → Prop) (calm : S.Cmd → Prop) (Q : Trace S → α → Prop)
    (t : Trace S) (p : Prog S α) : Prop :=
  Heeds guard (Extends calm t) (fun u a => Extends calm t u ∧ Q u a) t p

namespace Brings
variable {calm : S.Cmd → Prop} {t : Trace S}

theorem ret {a : α} (h : Q t a) : Brings guard calm Q t (.ret a) := Heeds.ret ⟨.refl t, h⟩
theorem fail (e : S.Err) : Brings guard calm Q t (.fail e) := Heeds.fail (.refl t)

variable {p : Prog S α} {c : S.Cmd}

theorem since {u : Trace S} (hp : Brings guard calm Q u p)
    (htu : Extends calm t u) :
    Heeds guard (Extends calm t) (fun v a => Extends calm t v ∧ Q v a) u p :=
  Heeds.mono hp (fun _ h => htu.trans h) fun _ _ h => ⟨htu.trans h.1, h.2⟩

theorem bind {f : α → Prog S β} (hp : Brings guard calm Q t p)
    (hf : ∀ u a, Extends calm t u → Q u a → Brings guard calm R u (f a)) :
    Brings guard calm R t (p >>= f) :=
  Heeds.bind hp fun u a h => (hf u a h.1 h.2).since h.1

theorem perform {f : S.Res c → Prog S β} (hc : guard t c) (hcalm : calm c)
    (hf : ∀ r, Brings guard calm R (⟨c, r⟩ :: t) (f r)) :
    Brings guard calm R t (Prog.perform c >>= f) :=
  Heeds.perform hc (.refl t) fun r => (hf r).since (.cons hcalm r t)

theorem performLast {Q : Trace S → S.Res c → Prop} (hc : guard t c) (hcalm : calm c)
    (hQ : ∀ r, Q (⟨c, r⟩ :: t) r) : Brings guard calm Q t (Prog.perform c) :=
  Heeds.call hc (fun r => .ret ⟨.cons hcalm r t, hQ r⟩) fun _ => .fail (.refl t)

theorem attempt {Q' : Trace S → Except S.Err α → Prop} (hp : Brings guard calm Q t p)
    (hok : ∀ u a, Q u a → Q' u (.ok a))
    (herror : ∀ u e, Q' u (.error e)) : Brings guard calm Q' t p.attempt :=
  Heeds.attempt hp (fun u a h => ⟨h.1, hok u a h.2⟩) fun u e h => ⟨h, herror u e⟩

theorem mono {Q' : Trace S → α → Prop} (hp : Brings guard calm Q t p)
    (h : ∀ u a, Extends calm t u → Q u a → Q' u a) : Brings guard calm Q' t p :=
  Heeds.mono hp (fun _ hu => hu) fun u a hu => ⟨hu.1, h u a hu.1 hu.2⟩

theorem noting (hp : Brings guard calm Q t p) :
    Brings guard calm (fun u a => Extends calm t u ∧ Q u a) t p :=
  hp.mono fun _ _ htu h => ⟨htu, h⟩

theorem weaken {guard' : Trace S → S.Cmd → Prop} {calm' : S.Cmd → Prop}
    (hp : Brings guard calm Q t p) (hguard : ∀ t c, guard t c → guard' t c)
    (hcalm : ∀ c, calm c → calm' c) : Brings guard' calm' Q t p :=
  (Heeds.mono hp (fun _ h => h.mono hcalm) fun _ _ h => ⟨h.1.mono hcalm, h.2⟩).weaken hguard

end Brings

/-- Whatever it has behind it, the program issues only calm commands that the guard allows. -/
def Heedful (guard : Trace S → S.Cmd → Prop) (calm : S.Cmd → Prop) (p : Prog S α) : Prop :=
  ∀ t, Brings guard calm (fun _ _ => True) t p

namespace Heedful
variable {calm : S.Cmd → Prop}

theorem ret (a : α) : Heedful guard calm (.ret a) := fun _ => .ret trivial
theorem fail (e : S.Err) : Heedful guard calm (.fail e : Prog S α) := fun _ => .fail e

variable {f : α → Prog S β} {p : Prog S α} {c : S.Cmd}

theorem bind (hp : Heedful guard calm p)
    (hf : ∀ a, Heedful guard calm (f a)) : Heedful guard calm (p >>= f) := fun t =>
  (hp t).bind fun u a _ _ => hf a u

theorem andThen {t : Trace S} (hp : Heedful guard calm p)
    (hf : ∀ u a, Extends calm t u → Brings guard calm R u (f a)) :
    Brings guard calm R t (p >>= f) :=
  (hp t).bind fun u a htu _ => hf u a htu

theorem perform {f : S.Res c → Prog S β} (hc : ∀ t, guard t c) (hcalm : calm c)
    (hf : ∀ r, Heedful guard calm (f r)) : Heedful guard calm (Prog.perform c >>= f) := fun t =>
  .perform (hc t) hcalm fun r => hf r _

theorem performLast (hc : ∀ t, guard t c) (hcalm : calm c) :
    Heedful guard calm (Prog.perform c) := fun t => .performLast (hc t) hcalm fun _ => trivial

theorem attempt (hp : Heedful guard calm p) : Heedful guard calm p.attempt :=
  fun t => (hp t).attempt (fun _ _ _ => trivial) fun _ _ => trivial

theorem mono {guard' : Trace S → S.Cmd → Prop} {calm' : S.Cmd → Prop} (hp : Heedful guard calm p)
    (hguard : ∀ t c, guard t c → guard' t c)
    (hcalm : ∀ c, calm c → calm' c) : Heedful guard' calm' p := fun t =>
  (hp t).weaken hguard hcalm

end Heedful

theorem Brings.heedful {calm : S.Cmd → Prop} {Q : Trace S → Trace S → α → Prop} {p : Prog S α}
    (hp : ∀ t, Brings guard calm (Q t) t p) : Heedful guard calm p := fun t =>
  (hp t).mono fun _ _ _ _ => trivial
end
end Prog

/-! ## Faulty runs -/

namespace Pool
variable [DecidableEq ι] (m : Machine S σ)

def fault (p : Pool S σ ι α) (i : ι) (e : S.Err) : Pool S σ ι α :=
  match p.thread i with
  | .ret _ => p
  | .fail _ => p
  | .call _ k => { p with thread := Function.update p.thread i (k (.error e)) }

def turn (p : Pool S σ ι α) : ι × Option S.Err → Pool S σ ι α
  | (i, none) => p.step m i
  | (i, some e) => p.fault i e

def runFaulty (p : Pool S σ ι α) (turns : List (ι × Option S.Err)) : Pool S σ ι α :=
  turns.foldl (turn m) p

variable {guard : ι → Trace S → S.Cmd → Prop} {E : ι → Trace S → Prop}
  {Q : ι → Trace S → α → Prop}

structure Heeding (guard : ι → Trace S → S.Cmd → Prop) (E : ι → Trace S → Prop)
    (Q : ι → Trace S → α → Prop) (s₀ : σ) (p : Pool S σ ι α) : Prop where
  history : History m s₀ p.past p.state
  events : Always (fun e t => guard e.who (traceOf e.who t) e.cmd) p.past
  threads : ∀ i, Prog.Heeds (guard i) (E i) (Q i) (traceOf i p.past) (p.thread i)

variable {p : Pool S σ ι α} {s₀ : σ}

theorem Heeding.step (h : Heeding m guard E Q s₀ p) (i : ι) :
    Heeding m guard E Q s₀ (p.step m i) := by
  rcases step_cases m p i with hsame | ⟨c, k, hthread⟩
  · rw [hsame]
    exact h
  · have hi := h.threads i
    rw [hthread] at hi
    rw [step_call m hthread]
    cases hi with
    | call hguard hk _ =>
      refine ⟨⟨rfl, rfl, h.history⟩, ⟨hguard, h.events⟩, fun j => ?_⟩
      dsimp only
      by_cases hj : j = i
      · subst hj
        rw [Function.update_self, traceOf_cons_self (by rfl)]
        exact hk (m c p.state).1
      · rw [Function.update_of_ne hj, traceOf_cons_of_ne (Ne.symm hj)]
        exact h.threads j

theorem Heeding.fault (h : Heeding m guard E Q s₀ p) (i : ι)
    (e : S.Err) : Heeding m guard E Q s₀ (p.fault i e) := by
  have hi := h.threads i
  unfold Pool.fault
  split
  next => exact h
  next => exact h
  next c k hthread =>
    rw [hthread] at hi
    cases hi with
    | call _ _ hk =>
      refine ⟨h.history, h.events, fun j => ?_⟩
      dsimp only
      by_cases hj : j = i
      · subst hj
        rw [Function.update_self]
        exact hk e
      · rw [Function.update_of_ne hj]
        exact h.threads j

/-- Programs that heed their guards on their own heed them in every faulty run. -/
theorem heeding_runFaulty (s₀ : σ) {thread : ι → Prog S α}
    (h : ∀ i, Prog.Heeds (guard i) (E i) (Q i) [] (thread i)) (turns : List (ι × Option S.Err)) :
    Heeding m guard E Q s₀ ((start s₀ thread).runFaulty m turns) := by
  have hstart : Heeding m guard E Q s₀ (start s₀ thread) := ⟨rfl, trivial, h⟩
  generalize start s₀ thread = p at hstart
  induction turns generalizing p with
  | nil => exact hstart
  | cons x turns ih =>
    obtain ⟨i, _ | e⟩ := x
    · exact ih (p.step m i) (hstart.step m i)
    · exact ih (p.fault i e) (hstart.fault m i e)

end Pool
end Library
