import IrixMail.Library.Prog

/-!
# Pre- and postconditions of programs that run alone

From a state with `P`, a run of a program with `Ensures m P Q E` ends in a state with
`Q a` when it returns `a`, and in one with `E` when it fails. `Reads m s Q` is for the
programs that leave the state `s` as it is.
-/

namespace Library.Prog
variable {S : Sig} {σ α β : Type}

def Ensures (m : Machine S σ) (P : σ → Prop) (Q : α → σ → Prop) (E : σ → Prop) (p : Prog S α) :
    Prop :=
  ∀ s, P s → match p.run m s with
    | (.ok a, t) => Q a t
    | (.error _, t) => E t

namespace Ensures
variable {m : Machine S σ} {P I : σ → Prop} {Q : α → σ → Prop} {R : β → σ → Prop} {E : σ → Prop}

theorem ret {a : α} (h : ∀ s, P s → Q a s) : Ensures m P Q E (.ret a : Prog S α) := h

theorem bind {p : Prog S α} {f : α → Prog S β} (hp : Ensures m P Q E p)
    (hf : ∀ a, Ensures m (Q a) R E (f a)) : Ensures m P R E (p >>= f) := by
  intro s hs
  have hfirst := hp s hs
  rw [run_bind]
  cases hrun : p.run m s with
  | mk r t =>
    rw [hrun] at hfirst
    cases r with
    | error e => exact hfirst
    | ok a => exact hf a t hfirst

/-- A program whose value does not matter. -/
theorem of_run {p : Prog S α} (h : ∀ s, P s → I (p.run m s).2) :
    Ensures m P (fun _ => I) I p := by
  intro s hs
  have hend := h s hs
  cases hrun : p.run m s with
  | mk r t =>
    rw [hrun] at hend
    cases r <;> exact hend

theorem run {p : Prog S α} (hp : Ensures m P (fun _ => I) I p) {s : σ} (hs : P s) :
    I (p.run m s).2 := by
  have h := hp s hs
  cases hrun : p.run m s with
  | mk r t =>
    rw [hrun] at h
    cases r <;> exact h

end Ensures

def Reads (m : Machine S σ) (s : σ) (Q : α → Prop) (p : Prog S α) : Prop :=
  ∃ r, p.run m s = (r, s) ∧ ∀ a, r = .ok a → Q a

namespace Reads
variable {m : Machine S σ} {s : σ} {Q : α → Prop} {R : β → Prop} {p : Prog S α} {f : α → Prog S β}

theorem ret {a : α} (h : Q a) : Reads m s Q (.ret a) := ⟨_, rfl, fun _ ha => Except.ok.inj ha ▸ h⟩

theorem fail {e : S.Err} : Reads m s Q (.fail e) := ⟨_, rfl, nofun⟩

theorem mono {Q' : α → Prop} (hp : Reads m s Q p) (h : ∀ a, Q a → Q' a) : Reads m s Q' p := by
  obtain ⟨r, hrun, hr⟩ := hp
  exact ⟨r, hrun, fun a ha => h a (hr a ha)⟩

theorem bind (hp : Reads m s Q p) (hf : ∀ a, Q a → Reads m s R (f a)) : Reads m s R (p >>= f) := by
  obtain ⟨r, hrun, hr⟩ := hp
  rw [Reads, run_bind, hrun]
  cases r with
  | error e => exact ⟨_, rfl, nofun⟩
  | ok a => exact hf a (hr a rfl)

/-- A failing read ends where it began. -/
theorem run_bind {I : σ → Prop} (hp : Reads m s Q p) (hs : I s)
    (hf : ∀ a, Q a → I ((f a).run m s).2) : I ((p >>= f).run m s).2 := by
  obtain ⟨r, hrun, hr⟩ := hp
  rw [Prog.run_bind, hrun]
  cases r with
  | error e => exact hs
  | ok a => exact hf a (hr a rfl)

end Reads
end Library.Prog
