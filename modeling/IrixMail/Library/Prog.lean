import Mathlib.Logic.Function.Basic

/-!
# Programs over a command signature

A program is a tree of commands to some machine, with a continuation for every
reply. A reply is either the result of the command or an error, so that code
which catches a failing command and code which passes it on are both programs.
The same tree is run alone on a machine (`run`), step by step among other
programs, or against an arbitrary environment (`Exec`).

`LeadsTo quiet stop p` says that `p` issues only `quiet` commands until it
becomes a program that satisfies `stop`, whatever the replies are. It is what a
caller needs to know of a long program: which commands come before the one that
matters, and what that one is.
-/

namespace Library

structure Sig where
  Cmd : Type
  Res : Cmd → Type
  Err : Type

inductive Prog (S : Sig) (α : Type) : Type where
  | ret (a : α) : Prog S α
  | fail (e : S.Err) : Prog S α
  | call (c : S.Cmd) (k : Except S.Err (S.Res c) → Prog S α) : Prog S α

abbrev Machine (S : Sig) (σ : Type) := (c : S.Cmd) → σ → S.Res c × σ

namespace Prog
variable {S : Sig} {α β γ σ : Type}

def bind : Prog S α → (α → Prog S β) → Prog S β
  | .ret a, f => f a
  | .fail e, _ => .fail e
  | .call c k, f => .call c fun r => (k r).bind f

instance : Monad (Prog S) where
  pure := .ret
  bind := bind

@[simp] theorem pure_eq (a : α) : (pure a : Prog S α) = .ret a := rfl
@[simp] theorem ret_bind (a : α) (f : α → Prog S β) : (Prog.ret a >>= f) = f a := rfl
@[simp] theorem fail_bind (e : S.Err) (f : α → Prog S β) :
    ((Prog.fail e : Prog S α) >>= f) = .fail e := rfl
@[simp] theorem call_bind (c : S.Cmd) (k : Except S.Err (S.Res c) → Prog S α)
    (f : α → Prog S β) : (Prog.call c k >>= f) = .call c fun r => k r >>= f := rfl

theorem bind_assoc' (p : Prog S α) (f : α → Prog S β) (g : β → Prog S γ) :
    (p >>= f) >>= g = p >>= fun a => f a >>= g := by
  induction p with
  | ret a => rfl
  | fail e => rfl
  | call c k ih =>
    simp only [call_bind]
    congr 1
    funext r
    exact ih r

theorem bind_ret' (p : Prog S α) : (p >>= fun a => Prog.ret a) = p := by
  induction p with
  | ret a => rfl
  | fail e => rfl
  | call c k ih =>
    simp only [call_bind]
    congr 1
    funext r
    exact ih r

instance : LawfulMonad (Prog S) :=
  LawfulMonad.mk' (Prog S) (fun p => bind_ret' p) (fun _ _ => rfl) (fun p f g => bind_assoc' p f g)

/-- Issue a command and pass its error on. -/
def perform (c : S.Cmd) : Prog S (S.Res c) :=
  .call c fun
    | .ok r => .ret r
    | .error e => .fail e

/-- Run a program and hand its error to the caller instead of passing it on. -/
def attempt : Prog S α → Prog S (Except S.Err α)
  | .ret a => .ret (.ok a)
  | .fail e => .ret (.error e)
  | .call c k => .call c fun r => (k r).attempt

/-! ## Alone on a machine -/

def run (m : Machine S σ) : Prog S α → σ → Except S.Err α × σ
  | .ret a, s => (.ok a, s)
  | .fail e, s => (.error e, s)
  | .call c k, s => (k (.ok (m c s).1)).run m (m c s).2

variable (m : Machine S σ)

@[simp] theorem run_ret (a : α) (s : σ) : (Prog.ret a : Prog S α).run m s = (.ok a, s) := rfl
@[simp] theorem run_fail (e : S.Err) (s : σ) :
    (Prog.fail e : Prog S α).run m s = (.error e, s) := rfl
@[simp] theorem run_call (c : S.Cmd) (k : Except S.Err (S.Res c) → Prog S α) (s : σ) :
    (Prog.call c k).run m s = (k (.ok (m c s).1)).run m (m c s).2 := rfl

theorem run_bind (p : Prog S α) (f : α → Prog S β) (s : σ) :
    (p >>= f).run m s =
      match p.run m s with
      | (.ok a, s') => (f a).run m s'
      | (.error e, s') => (.error e, s') := by
  induction p generalizing s with
  | ret a => rfl
  | fail e => rfl
  | call c k ih => exact ih _ _

@[simp] theorem run_perform_bind (c : S.Cmd) (f : S.Res c → Prog S β) (s : σ) :
    (perform c >>= f).run m s = (f (m c s).1).run m (m c s).2 := by
  rfl

@[simp] theorem run_perform (c : S.Cmd) (s : σ) :
    (perform c).run m s = (.ok (m c s).1, (m c s).2) := rfl

theorem run_map (f : α → β) (p : Prog S α) (s : σ) :
    (f <$> p).run m s = ((p.run m s).1.map f, (p.run m s).2) := by
  rw [map_eq_pure_bind, run_bind]
  rcases p.run m s with ⟨_ | a, s'⟩ <;> rfl

theorem run_bind_ret (f : α → β) (p : Prog S α) (s : σ) :
    ((p >>= fun a => pure (f a)).run m s).2 = (p.run m s).2 := by
  rw [run_bind]
  rcases p.run m s with ⟨_ | a, s'⟩ <;> rfl

variable {b : β} {p : Prog S α} {t : List (Σ c : S.Cmd, Except S.Err (S.Res c))}

theorem run_bind_ok {m : Machine S σ} {f : α → Prog S β} {s t : σ}
    (h : (p >>= f).run m s = (.ok b, t)) :
    ∃ a u, p.run m s = (.ok a, u) ∧ (f a).run m u = (.ok b, t) := by
  rw [run_bind] at h
  split at h
  · exact ⟨_, _, by assumption, h⟩
  · simp at h

/-- What every command preserves, a whole run preserves. -/
theorem run_rel {R : σ → σ → Prop} (hrefl : ∀ s, R s s)
    (htrans : ∀ s t u, R s t → R t u → R s u) (hstep : ∀ c s, R s (m c s).2)
    (p : Prog S α) (s : σ) : R s (p.run m s).2 := by
  induction p generalizing s with
  | ret a => exact hrefl s
  | fail e => exact hrefl s
  | call c k ih => exact htrans _ _ _ (hstep c s) (ih _ _)

theorem run_attempt (p : Prog S α) (s : σ) :
    p.attempt.run m s = (.ok (p.run m s).1, (p.run m s).2) := by
  induction p generalizing s with
  | ret a => rfl
  | fail e => rfl
  | call c k ih => exact ih _ _

/-- No run of the program changes what `f` observes of the state. -/
def Keeps {τ : Type} (m : Machine S σ) (f : σ → τ) (p : Prog S α) : Prop :=
  ∀ s, f (p.run m s).2 = f s

namespace Keeps
variable {τ : Type} {m : Machine S σ} {f : σ → τ}

theorem ret (a : α) : Keeps m f (.ret a : Prog S α) := fun _ => rfl

theorem fail (e : S.Err) : Keeps m f (.fail e : Prog S α) := fun _ => rfl

theorem perform {c : S.Cmd} (h : ∀ s, f (m c s).2 = f s) : Keeps m f (Prog.perform c) := h

variable {p : Prog S α}

theorem bind {g : α → Prog S β} (hp : Keeps m f p) (hg : ∀ a, Keeps m f (g a)) :
    Keeps m f (p >>= g) := by
  intro s
  have hfirst := hp s
  rw [run_bind]
  cases hrun : p.run m s with
  | mk r t =>
    rw [hrun] at hfirst
    cases r with
    | error e => exact hfirst
    | ok a => exact (hg a t).trans hfirst

theorem attempt (hp : Keeps m f p) : Keeps m f p.attempt := by
  intro s
  rw [run_attempt]
  exact hp s

end Keeps

/-! ## Against any environment -/

/-- `Exec p t r`: with the replies recorded in `t`, the program issues the
commands recorded in `t` and ends with `r`. -/
inductive Exec : Prog S α → List (Σ c : S.Cmd, Except S.Err (S.Res c)) → Except S.Err α → Prop
  | ret (a : α) : Exec (.ret a) [] (.ok a)
  | fail (e : S.Err) : Exec (.fail e) [] (.error e)
  | call {c : S.Cmd} {k : Except S.Err (S.Res c) → Prog S α} (r : Except S.Err (S.Res c))
      {t : List (Σ c : S.Cmd, Except S.Err (S.Res c))} {x : Except S.Err α} :
      Exec (k r) t x → Exec (.call c k) (⟨c, r⟩ :: t) x

theorem Exec.bind_cases {f : α → Prog S β}
    {x : Except S.Err β}
    (h : Exec (p >>= f) t x) :
    (∃ a t₁ t₂, t = t₁ ++ t₂ ∧ Exec p t₁ (.ok a) ∧ Exec (f a) t₂ x) ∨
      ∃ e, Exec p t (.error e) ∧ x = .error e := by
  induction p generalizing t with
  | ret a => exact .inl ⟨a, [], t, rfl, .ret a, h⟩
  | fail e =>
    cases h
    exact .inr ⟨e, .fail e, rfl⟩
  | call c k ih =>
    cases h with
    | call r h =>
      rcases ih r h with ⟨a, t₁, t₂, rfl, h₁, h₂⟩ | ⟨e, he, hx⟩
      · exact .inl ⟨a, _ :: t₁, t₂, rfl, .call r h₁, h₂⟩
      · exact .inr ⟨e, .call r he, hx⟩

theorem Exec.bind_ok {f : α → Prog S β}
    (h : Exec (p >>= f) t (.ok b)) :
    ∃ a t₁ t₂, t = t₁ ++ t₂ ∧ Exec p t₁ (.ok a) ∧ Exec (f a) t₂ (.ok b) := by
  rcases h.bind_cases with h | ⟨e, -, he⟩
  · exact h
  · cases he

/-- Catching an error never ends in one. -/
theorem Exec.attempt_cases {x : Except S.Err (Except S.Err α)}
    (h : Exec p.attempt t x) : ∃ r, x = .ok r ∧ Exec p t r := by
  induction p generalizing t with
  | ret a =>
    cases h
    exact ⟨_, rfl, .ret a⟩
  | fail e =>
    cases h
    exact ⟨_, rfl, .fail e⟩
  | call c k ih =>
    cases h with
    | call r h =>
      obtain ⟨y, hy, hk⟩ := ih r h
      exact ⟨y, hy, .call r hk⟩

def replies (m : Machine S σ) : Prog S α → σ → List (Σ c : S.Cmd, Except S.Err (S.Res c))
  | .ret _, _ => []
  | .fail _, _ => []
  | .call c k, s => ⟨c, .ok (m c s).1⟩ :: replies m (k (.ok (m c s).1)) (m c s).2

theorem exec_replies (p : Prog S α) (s : σ) : Exec p (p.replies m s) (p.run m s).1 := by
  induction p generalizing s with
  | ret a => exact .ret a
  | fail e => exact .fail e
  | call c k ih => exact .call _ (ih _ _)

def Returns (Q : α → Prop) (p : Prog S α) : Prop := ∀ t a, Exec p t (.ok a) → Q a

namespace Returns
variable {P Q : α → Prop} {R : β → Prop}

theorem ret {a : α} (h : Q a) : Returns Q (.ret a : Prog S α) := by
  rintro _ _ (_ | _ | _)
  exact h

theorem fail (e : S.Err) : Returns Q (.fail e : Prog S α) := by
  rintro _ _ (_ | _ | _)

variable {p : Prog S α}

theorem bind {f : α → Prog S β} (hp : Returns P p)
    (hf : ∀ a, P a → Returns R (f a)) : Returns R (p >>= f) := by
  intro t b h
  obtain ⟨a, t₁, t₂, -, hfirst, hrest⟩ := h.bind_ok
  exact hf a (hp t₁ a hfirst) t₂ b hrest

theorem mono (hp : Returns P p) (h : ∀ a, P a → Q a) : Returns Q p :=
  fun t a he => h a (hp t a he)

theorem any (p : Prog S α) : Returns (fun _ => True) p := fun _ _ _ => trivial

end Returns

/-! ## Quiet prefixes -/

inductive LeadsTo (quiet : S.Cmd → Prop) (stop : Prog S α → Prop) : Prog S α → Prop
  | here {p : Prog S α} : stop p → LeadsTo quiet stop p
  | call {c : S.Cmd} {k : Except S.Err (S.Res c) → Prog S α} :
      quiet c → (∀ r, LeadsTo quiet stop (k (.ok r))) → LeadsTo quiet stop (.call c k)

namespace LeadsTo
variable {quiet : S.Cmd → Prop} {stop stop' : Prog S α → Prop}

variable {p : Prog S α}

theorem mono (h : ∀ p, stop p → stop' p) (hp : LeadsTo quiet stop p) :
    LeadsTo quiet stop' p := by
  induction hp with
  | here hs => exact .here (h _ hs)
  | call hq _ ih => exact .call hq ih

theorem weaken {quiet' : S.Cmd → Prop} (h : ∀ c, quiet c → quiet' c)
    (hp : LeadsTo quiet stop p) : LeadsTo quiet' stop p := by
  induction hp with
  | here hs => exact .here hs
  | call hq _ ih => exact .call (h _ hq) ih

theorem perform {c : S.Cmd} {f : S.Res c → Prog S α} (hc : quiet c)
    (hf : ∀ r, LeadsTo quiet stop (f r)) : LeadsTo quiet stop (Prog.perform c >>= f) := by
  exact .call hc hf

/-- Alone on a machine, the quiet prefix is run through: what remains is a `stop`
program, in a state that quiet commands lead to. -/
theorem run_eq (m : Machine S σ) {R : σ → σ → Prop} (hrefl : ∀ s, R s s)
    (htrans : ∀ s t u, R s t → R t u → R s u)
    (hquiet : ∀ c s, quiet c → R s (m c s).2) (hp : LeadsTo quiet stop p)
    (s : σ) : ∃ q s', stop q ∧ R s s' ∧ p.run m s = q.run m s' := by
  induction hp generalizing s with
  | here hs => exact ⟨_, s, hs, hrefl s, rfl⟩
  | call hq _ ih =>
    obtain ⟨q, s', hs, hr, he⟩ := ih _ (m _ s).2
    exact ⟨q, s', hs, htrans _ _ _ (hquiet _ _ hq) hr, he⟩

end LeadsTo

/-- The program issues only quiet commands and returns a value with `P`. -/
def Yields (quiet : S.Cmd → Prop) (P : α → Prop) : Prog S α → Prop :=
  LeadsTo quiet fun q => ∃ a, q = .ret a ∧ P a

namespace Yields
variable {quiet : S.Cmd → Prop} {P : α → Prop} {Q : β → Prop}

theorem ret {a : α} (h : P a) : Yields quiet P (.ret a) := .here ⟨a, rfl, h⟩

variable {p : Prog S α}

/-- The second half of a sequence is reached with what the first returns. -/
theorem leadsTo {stop : Prog S β → Prop} {f : α → Prog S β}
    (hp : Yields quiet P p) (hf : ∀ a, P a → LeadsTo quiet stop (f a)) :
    LeadsTo quiet stop (p >>= f) := by
  induction hp with
  | here hs =>
    obtain ⟨a, rfl, ha⟩ := hs
    exact hf a ha
  | call hq _ ih => exact .call hq ih

theorem bind {f : α → Prog S β} (hp : Yields quiet P p)
    (hf : ∀ a, P a → Yields quiet Q (f a)) : Yields quiet Q (p >>= f) :=
  hp.leadsTo hf

theorem mono {P' : α → Prop} (h : ∀ a, P a → P' a) (hp : Yields quiet P p) :
    Yields quiet P' p :=
  LeadsTo.mono (fun _ ⟨a, hq, ha⟩ => ⟨a, hq, h a ha⟩) hp

theorem attempt (hp : Yields quiet P p) :
    Yields quiet (fun r => ∃ a, r = .ok a ∧ P a) p.attempt := by
  induction hp with
  | here hs =>
    obtain ⟨a, rfl, ha⟩ := hs
    exact .ret ⟨a, rfl, ha⟩
  | call hq _ ih => exact .call hq ih

end Yields
end Prog
end Library
