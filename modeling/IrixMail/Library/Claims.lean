import Mathlib.Data.Set.Basic

/-!
# Tables of claims

Owners claim keys, each with a value, and a table answers a key with the value that is
claimed for it. When some owners change their claims, the table has to be corrected at
the keys they give up or take; `Reassigned` says which corrections are enough.
-/

namespace Library.Claims
variable {O K V : Type} {D : Set K} {R : Set O} {table table' : K → Option V}
  {claims claims' : O → K → V → Prop}

/-- On the keys of `D` the table has the claimed values, and nothing else. -/
def Tracks (D : Set K) (table : K → Option V) (claims : O → K → V → Prop) : Prop :=
  ∀ k ∈ D, ∀ v, table k = some v ↔ ∃ o, claims o k v

/-- The owners of `R` change their claims, and the table follows them. -/
structure Reassigned (D : Set K) (R : Set O) (table table' : K → Option V)
    (claims claims' : O → K → V → Prop) : Prop where
  others : ∀ o ∉ R, ∀ k v, claims' o k v ↔ claims o k v
  taken : ∀ k ∈ D, ∀ o ∈ R, ∀ v, claims' o k v → table' k = some v
  cleared : ∀ k ∈ D, (∀ o ∈ R, ∀ v, ¬ claims' o k v) → (∃ o ∈ R, ∃ v, claims o k v) →
    table' k = none
  kept : ∀ k ∈ D, (∀ o ∈ R, ∀ v, ¬ claims' o k v) → (∀ o ∈ R, ∀ v, ¬ claims o k v) →
    table' k = table k
  apart : ∀ k ∈ D, ∀ o ∈ R, ∀ v, claims o k v ∨ claims' o k v → ∀ o' ∉ R, ∀ v', ¬ claims o' k v'

theorem Tracks.reassigned (h : Tracks D table claims)
    (hnew : Reassigned D R table table' claims claims') : Tracks D table' claims' := by
  intro k hk v
  constructor
  · intro hv
    by_cases htaken : ∃ o ∈ R, ∃ v, claims' o k v
    · obtain ⟨o, ho, v', hclaim⟩ := htaken
      rw [hnew.taken k hk o ho v' hclaim] at hv
      exact ⟨o, Option.some.inj hv ▸ hclaim⟩
    · have hfree : ∀ o ∈ R, ∀ v, ¬ claims' o k v := fun o ho v hc => htaken ⟨o, ho, v, hc⟩
      by_cases hgiven : ∃ o ∈ R, ∃ v, claims o k v
      · rw [hnew.cleared k hk hfree hgiven] at hv
        cases hv
      · have hunclaimed : ∀ o ∈ R, ∀ v, ¬ claims o k v := fun o ho v hc => hgiven ⟨o, ho, v, hc⟩
        rw [hnew.kept k hk hfree hunclaimed] at hv
        obtain ⟨o, hclaim⟩ := (h k hk v).1 hv
        have ho : o ∉ R := fun ho => hunclaimed o ho v hclaim
        exact ⟨o, (hnew.others o ho k v).2 hclaim⟩
  · rintro ⟨o, hclaim'⟩
    by_cases ho : o ∈ R
    · exact hnew.taken k hk o ho v hclaim'
    · have hclaim := (hnew.others o ho k v).1 hclaim'
      rw [hnew.kept k hk]
      · exact (h k hk v).2 ⟨o, hclaim⟩
      · exact fun r hr u hc => hnew.apart k hk r hr u (.inr hc) o ho v hclaim
      · exact fun r hr u hc => hnew.apart k hk r hr u (.inl hc) o ho v hclaim

/-- Where nobody claims anything else, the table needs no correction. -/
theorem Tracks.congr (h : Tracks D table claims) (htable : ∀ k ∈ D, table' k = table k)
    (hclaims : ∀ o k v, claims' o k v ↔ claims o k v) : Tracks D table' claims' := by
  intro k hk v
  rw [htable k hk, h k hk v]
  exact exists_congr fun o => (hclaims o k v).symm

end Library.Claims
