import Mathlib.Data.Finset.Image

/-!
# Replaying births and deaths

A journal of entries about keys: an entry brings its key to life, ends it, or
touches it. No key is born twice. A reader that holds the living keys at some point
of the journal may take what follows in pieces, and of each piece only the keys
that were born and did not die, and those that died and were not born in it.
-/

namespace Library
variable {ε κ : Type}

structure Journal (ε κ : Type) where
  key : ε → κ
  born : ε → Bool
  dies : ε → Bool
  /-- Nothing is born and dies at once. -/
  apart : ∀ e, born e = true → dies e = false

namespace Journal

section Events
variable (J : Journal ε κ)

def Born (es : List ε) (k : κ) : Prop := ∃ e ∈ es, J.key e = k ∧ J.born e = true
def Dies (es : List ε) (k : κ) : Prop := ∃ e ∈ es, J.key e = k ∧ J.dies e = true
def Touched (es : List ε) (k : κ) : Prop := ∃ e ∈ es, J.key e = k

variable {J} {es : List ε} {k : κ} {e : ε}

theorem born_cons :
    J.Born (e :: es) k ↔ (J.key e = k ∧ J.born e = true) ∨ J.Born es k := by
  simp [Born]

theorem dies_cons :
    J.Dies (e :: es) k ↔ (J.key e = k ∧ J.dies e = true) ∨ J.Dies es k := by
  simp [Dies]

end Events

variable (J : Journal ε κ) [DecidableEq κ]

def step (living : Finset κ) (e : ε) : Finset κ :=
  if J.born e then insert (J.key e) living
  else if J.dies e then living.erase (J.key e)
  else living

def replay (living : Finset κ) (es : List ε) : Finset κ := es.foldl J.step living

/-- Each key is born at most once, and only living keys are touched or die. -/
def Consistent : Finset κ → Finset κ → List ε → Prop
  | _, _, [] => True
  | known, living, e :: es =>
    (if J.born e then J.key e ∉ known else J.key e ∈ living) ∧
      Consistent (insert (J.key e) known) (J.step living e) es

variable {J} {known living : Finset κ} {es fs : List ε} {k : κ}

theorem replay_append : J.replay living (es ++ fs) = J.replay (J.replay living es) fs :=
  List.foldl_append

theorem mem_step {e : ε} :
    k ∈ J.step living e ↔
      (k ∈ living ∨ J.key e = k ∧ J.born e = true) ∧ ¬ (J.key e = k ∧ J.dies e = true) := by
  have hapart := J.apart e
  unfold step
  split
  next hborn =>
    rw [Finset.mem_insert, hborn, hapart hborn]
    grind
  next hborn =>
    split
    next hdies => grind
    next hdies => grind

theorem step_subset {e : ε} (h : living ⊆ known) : J.step living e ⊆ insert (J.key e) known := by
  intro k hk
  rcases (mem_step.1 hk).1 with hk | ⟨rfl, -⟩
  · exact Finset.mem_insert_of_mem (h hk)
  · exact Finset.mem_insert_self _ _

theorem not_born_of_known (h : J.Consistent known living es) (hk : k ∈ known) : ¬ J.Born es k := by
  induction es generalizing known living with
  | nil => simp [Born]
  | cons e es ih =>
    rintro ⟨f, hf, hkey, hborn⟩
    rcases List.mem_cons.1 hf with rfl | hf
    · have hfresh := h.1
      rw [if_pos hborn, hkey] at hfresh
      exact hfresh hk
    · exact ih h.2 (Finset.mem_insert_of_mem hk) ⟨f, hf, hkey, hborn⟩

theorem mem_replay (h : J.Consistent known living es) (hsub : living ⊆ known) :
    k ∈ J.replay living es ↔ (k ∈ living ∨ J.Born es k) ∧ ¬ J.Dies es k := by
  induction es generalizing known living with
  | nil => simp [replay, Born, Dies]
  | cons e es ih =>
    have hrest := ih h.2 (step_subset hsub)
    have hdead : J.key e = k → J.dies e = true → ¬ J.Born es k := fun hkey _ hborn =>
      not_born_of_known h.2 (hkey ▸ Finset.mem_insert_self _ _) hborn
    change k ∈ J.replay (J.step living e) es ↔ _
    rw [hrest, mem_step, born_cons, dies_cons]
    grind

theorem consistent_append :
    J.Consistent known living (es ++ fs) ↔ J.Consistent known living es ∧
      J.Consistent (known ∪ (es.map J.key).toFinset) (J.replay living es) fs := by
  induction es generalizing known living with
  | nil => simp [Consistent, replay]
  | cons e es ih =>
    have hunion : insert (J.key e) known ∪ (es.map J.key).toFinset =
        known ∪ ((e :: es).map J.key).toFinset := by
      simp [Finset.insert_union, Finset.union_insert]
    rw [List.cons_append, Consistent, Consistent, ih, hunion, and_assoc]
    rfl

theorem replay_subset (hsub : living ⊆ known) :
    J.replay living es ⊆ known ∪ (es.map J.key).toFinset := by
  induction es generalizing known living with
  | nil => simpa [replay] using hsub
  | cons e es ih =>
    refine (ih (step_subset hsub)).trans ?_
    simp [Finset.insert_union, Finset.union_insert]

theorem replay_eq_of_piece (h : J.Consistent known living es) (hsub : living ⊆ known)
    {created destroyed : Finset κ} (hcreated : ∀ k, k ∈ created ↔ J.Born es k ∧ ¬ J.Dies es k)
    (hdestroyed : ∀ k, k ∈ destroyed ↔ J.Dies es k ∧ ¬ J.Born es k) :
    (living ∪ created) \ destroyed = J.replay living es := by
  ext k
  have hborn : k ∈ living → ¬ J.Born es k := fun hk => not_born_of_known h (hsub hk)
  rw [Finset.mem_sdiff, Finset.mem_union, hcreated, hdestroyed, mem_replay h hsub]
  tauto

end Journal
end Library
