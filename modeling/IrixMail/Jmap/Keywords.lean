import IrixMail.Jmap.Context

/-!
# The names of keywords

One parser reads the names that IMAP and JMAP write, with either sign before a system flag.
JMAP keeps the two flags it does not have as custom keywords, which IMAP reads as these flags.
-/

namespace IrixMail.Jmap
open Mail

def keywordToImap : Keyword → String
  | .seen => "\\Seen"
  | .draft => "\\Draft"
  | .flagged => "\\Flagged"
  | .answered => "\\Answered"
  | .deleted => "\\Deleted"
  | .recent => "\\Recent"
  | .junk => "$Junk"
  | .notJunk => "$NotJunk"
  | .forwarded => "$Forwarded"
  | .custom name => name

def keywordFromImap (atom : String) : Keyword := (parseSystemFlag atom).getD (.custom atom)

def keywordToJmap : Keyword → Option String
  | .seen => some "$seen"
  | .draft => some "$draft"
  | .flagged => some "$flagged"
  | .answered => some "$answered"
  | .junk => some "$junk"
  | .notJunk => some "$notjunk"
  | .forwarded => some "$forwarded"
  | .recent | .deleted => none
  | .custom name => some name

/-- A keyword is read back under the name that each protocol writes. -/
structure KeepsIdentity (k : Keyword) : Prop where
  imap : keywordFromImap (keywordToImap k) = k
  jmap : ∀ name, keywordToJmap k = some name → keywordFromJmap name = k

theorem parseSystemFlag_ne_custom (atom name : String) :
    parseSystemFlag atom ≠ some (.custom name) := by
  intro h
  obtain ⟨rest, -, h⟩ := Option.bind_eq_some_iff.1 h
  split at h <;> cases h

/-- A custom keyword is kept exactly if its name is not read as a system flag. -/
theorem keepsIdentity_iff (k : Keyword) :
    KeepsIdentity k ↔ ∀ name, k = .custom name → parseSystemFlag name = none := by
  constructor
  · rintro ⟨himap, -⟩ name rfl
    cases hflag : parseSystemFlag name with
    | none => rfl
    | some flag =>
      simp only [keywordFromImap, keywordToImap, hflag, Option.getD_some] at himap
      exact absurd (himap ▸ hflag) (parseSystemFlag_ne_custom name name)
  · intro h
    cases k with
    | custom text =>
      refine ⟨by simp [keywordFromImap, keywordToImap, h text rfl], ?_⟩
      rintro name ⟨⟩
      simp [keywordFromJmap, h text rfl]
    | _ =>
      refine ⟨by decide +kernel, ?_⟩
      rintro name ⟨⟩
      all_goals decide +kernel

/-- What IMAP or Sieve sets is kept. What JMAP sets is kept, and IMAP reads none of it as a flag
that JMAP does not have, exactly if the name given is not one of these two flags'. -/
theorem keywords_kept (text : String) :
    KeepsIdentity (keywordFromImap text) ∧
      (KeepsIdentity (keywordFromJmap text) ∧
          keywordFromImap (keywordToImap (keywordFromJmap text)) ∉ [.deleted, .recent] ↔
        parseSystemFlag text ∉ [some .deleted, some .recent]) := by
  rw [keepsIdentity_iff, keepsIdentity_iff, keywordFromImap, keywordFromJmap]
  cases hflag : parseSystemFlag text with
  | none => simp +contextual [keywordToImap, keywordFromImap, hflag]
  | some k =>
    have hk : ∀ name, k ≠ .custom name := fun name hk =>
      parseSystemFlag_ne_custom text name (hk ▸ hflag)
    refine ⟨fun name h => absurd h (hk name), ?_⟩
    cases k with
    | custom name => exact absurd rfl (hk name)
    | deleted | recent => simp [hflag]
    | _ =>
      dsimp only
      exact iff_of_true ⟨nofun, by decide +kernel⟩ (by decide)

theorem deleted_through_jmap :
    keywordFromImap (keywordToImap (keywordFromJmap "$Deleted")) = .deleted := by
  decide +kernel

end IrixMail.Jmap
