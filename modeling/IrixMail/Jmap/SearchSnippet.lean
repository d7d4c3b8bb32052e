import IrixMail.Store.Fts

/-!
# Highlighting in search snippets

Matches are found in a lower-cased copy of the text, and their byte offsets are used to
slice the text itself. A slice that does not begin and end between characters panics.
-/

namespace IrixMail.Jmap
open Store.Fts List

/-- The text before and after a byte offset, when that falls between characters. -/
def splitBytes : List Char → ℕ → Option (List Char × List Char)
  | cs, 0 => some ([], cs)
  | [], _ + 1 => none
  | c :: cs, n + 1 =>
    if n + 1 < c.utf8Size then none
    else (splitBytes cs (n + 1 - c.utf8Size)).map (Prod.map (c :: ·) id)

def isCharBoundary (text : List Char) (n : ℕ) : Bool := (splitBytes text n).isSome

/-- The slice `text[first..last]`; `none` where it panics. -/
def slice (text : List Char) (first last : ℕ) : Option (List Char) := do
  let (_, rest) ← splitBytes text first
  if last < first then none
  let (found, _) ← splitBytes rest (last - first)
  some found

/-- The offsets of the matches that do not overlap, from the left. `skip` characters still
belong to the last match. -/
def matchIndices (needle : List Char) (offset skip : ℕ) : List Char → List ℕ
  | [] => if needle = [] then [offset] else []
  | c :: cs =>
    if skip = 0 ∧ needle <+: c :: cs then
      offset :: matchIndices needle (offset + c.utf8Size) (needle.length - 1) cs
    else matchIndices needle (offset + c.utf8Size) (skip - 1) cs

inductive Piece
  | copied (text : List Char)
  | tag (name : String)

/-- What is left of a piece of the output when the two marks that are inserted are deleted. -/
def Piece.unmarked : Piece → List Char
  | copied text => text
  | tag name => if name = "<mark>" ∨ name = "</mark>" then [] else name.toList

def markFrom (text : List Char) (width last : ℕ) : List ℕ → Option (List Piece)
  | [] => do
    let rest ← slice text last (utf8Length text)
    some [.copied rest]
  | start :: starts => do
    let before ← slice text last start
    let found ← slice text start (start + width)
    let rest ← markFrom text width (start + width) starts
    some (.copied before :: .tag "<mark>" :: .copied found :: .tag "</mark>" :: rest)

section Highlight
variable (toLowercase : List Char → List Char) (text term : List Char)

/-- What is pushed to the output, piece by piece; `none` where a slice panics. -/
def highlight : Option (List Piece) :=
  let lowerText := toLowercase text
  let lowerTerm := toLowercase term
  if utf8Length lowerText ≠ utf8Length text then some [.copied text]
  else markFrom text (utf8Length lowerTerm) 0 (matchIndices lowerTerm 0 0 lowerText)

/-- Lower-casing changes the length, or each match begins and ends between characters of
the text. -/
def Aligned : Prop :=
  utf8Length (toLowercase text) ≠ utf8Length text ∨
    ∀ start ∈ matchIndices (toLowercase term) 0 0 (toLowercase text),
      isCharBoundary text start ∧ isCharBoundary text (start + utf8Length (toLowercase term))

end Highlight

theorem utf8Length_append (s t : List Char) : utf8Length (s ++ t) = utf8Length s + utf8Length t := by
  simp [utf8Length]

variable {text pre rest : List Char}

theorem splitBytes_append (pre rest : List Char) (n : ℕ) :
    splitBytes (pre ++ rest) (utf8Length pre + n) =
      (splitBytes rest n).map (Prod.map (pre ++ ·) id) := by
  induction pre with
  | nil =>
    rw [show utf8Length [] + n = n from zero_add n]
    exact Option.map_id'.symm
  | cons c pre ih =>
    obtain ⟨k, hk⟩ := Nat.exists_eq_succ_of_ne_zero c.utf8Size_pos.ne'
    have hlen : utf8Length (c :: pre) + n = (k + (utf8Length pre + n)) + 1 := by
      simp only [utf8Length, map_cons, sum_cons]
      omega
    rw [hlen, cons_append, splitBytes, if_neg (by omega), hk,
      show k + (utf8Length pre + n) + 1 - (k + 1) = utf8Length pre + n by omega, ih, Option.map_map]
    rfl

theorem eq_of_splitBytes {n : ℕ} {p q : List Char} (h : splitBytes text n = some (p, q)) :
    text = p ++ q ∧ utf8Length p = n := by
  induction text, n using splitBytes.induct generalizing p with
  | case1 cs => simp_all [splitBytes, utf8Length]
  | case2 n => cases h
  | case3 c cs n hlt => simp [splitBytes, hlt] at h
  | case4 c cs n hle ih =>
    rw [splitBytes, if_neg hle] at h
    obtain ⟨⟨p', q'⟩, hsplit, heq⟩ := Option.map_eq_some_iff.1 h
    obtain ⟨rfl, rfl⟩ := Prod.mk.inj heq
    obtain ⟨rfl, hlen⟩ := ih hsplit
    refine ⟨rfl, ?_⟩
    simp only [utf8Length, map_cons, sum_cons] at hlen ⊢
    omega

theorem slice_append (pre rest : List Char) (n : ℕ) :
    slice (pre ++ rest) (utf8Length pre) (utf8Length pre + n) = (splitBytes rest n).map Prod.fst := by
  have hpre := splitBytes_append pre rest 0
  rw [add_zero, splitBytes] at hpre
  rw [slice, hpre]
  cases hsplit : splitBytes rest n <;> simp [hsplit]

theorem isCharBoundary_append (pre rest : List Char) (n : ℕ) :
    isCharBoundary (pre ++ rest) (utf8Length pre + n) = (splitBytes rest n).isSome := by
  rw [isCharBoundary, splitBytes_append, Option.isSome_map]

/-- No start is before the end of the match before it. -/
def Spaced (width : ℕ) (last : ℕ) : List ℕ → Prop
  | [] => True
  | start :: starts => last ≤ start ∧ Spaced width (start + width) starts

theorem spaced_matchIndices {needle cs : List Char} {last offset skip : ℕ}
    (h : last ≤ offset + utf8Length (cs.take skip)) :
    Spaced (utf8Length needle) last (matchIndices needle offset skip cs) := by
  induction cs generalizing last offset skip with
  | nil =>
    rw [matchIndices]
    split
    · exact ⟨by simpa [utf8Length] using h, trivial⟩
    · trivial
  | cons c cs ih =>
    rw [matchIndices]
    split
    next hmatch =>
      obtain ⟨rfl, post, hpost⟩ := hmatch
      refine ⟨by simpa [utf8Length] using h, ih ?_⟩
      cases needle with
      | nil => simp
      | cons d ds =>
        obtain ⟨rfl, rfl⟩ := cons.inj hpost
        simp [utf8Length, add_assoc]
    next =>
      refine ih (h.trans ?_)
      cases skip with
      | zero => simp
      | succ k => simp [utf8Length, add_assoc]

theorem markFrom_iff {starts : List ℕ} {width : ℕ}
    (h : Spaced width (utf8Length pre) starts) :
    (∃ pieces, markFrom (pre ++ rest) width (utf8Length pre) starts = some pieces ∧
        pieces.flatMap Piece.unmarked = rest) ↔
      ∀ start ∈ starts, isCharBoundary (pre ++ rest) start ∧
        isCharBoundary (pre ++ rest) (start + width) := by
  induction starts generalizing pre rest with
  | nil =>
    have hall : splitBytes rest (utf8Length rest) = some (rest, []) := by
      simpa [splitBytes] using splitBytes_append rest [] 0
    simp [markFrom, utf8Length_append, slice_append, hall, Piece.unmarked]
  | cons start starts ih =>
    obtain ⟨hle, hrest⟩ := h
    obtain ⟨n, rfl⟩ := Nat.exists_eq_add_of_le hle
    rw [forall_mem_cons, isCharBoundary_append, markFrom, slice_append]
    cases hbefore : splitBytes rest n with
    | none => simp
    | some split =>
      obtain ⟨before, after⟩ := split
      obtain ⟨rfl, rfl⟩ := eq_of_splitBytes hbefore
      rw [← utf8Length_append] at hrest ⊢
      rw [← append_assoc, isCharBoundary_append, slice_append]
      cases hfound : splitBytes after width with
      | none => simp
      | some split =>
        obtain ⟨rfl, rfl⟩ := eq_of_splitBytes hfound
        rw [← utf8Length_append] at hrest ⊢
        rw [← append_assoc, ← ih hrest]
        simp [Option.bind_eq_some_iff, Piece.unmarked]

/-- Highlighting panics nowhere and only adds tags exactly when the matches are aligned. -/
theorem highlight_conservative_iff (toLowercase : List Char → List Char) (text term : List Char) :
    (∃ output, highlight toLowercase text term = some output ∧
        output.flatMap Piece.unmarked = text) ↔ Aligned toLowercase text term := by
  unfold highlight Aligned
  by_cases hlen : utf8Length (toLowercase text) = utf8Length text
  · have hspaced : Spaced (utf8Length (toLowercase term)) (utf8Length [])
        (matchIndices (toLowercase term) 0 0 (toLowercase text)) :=
      spaced_matchIndices (Nat.zero_le _)
    rw [if_neg (not_not.2 hlen), or_iff_right (not_not.2 hlen)]
    exact markFrom_iff hspaced
  · simp [hlen, Piece.unmarked]

/-- Lower-casing of two capitals whose lower case has another width. -/
def lowerTwo : List Char → List Char :=
  map fun c => if c = 'Ⱥ' then 'ⱥ' else if c = 'ẞ' then 'ß' else c

theorem highlight_panics : highlight lowerTwo ['Ⱥ', 'ẞ'] ['ß'] = none := by decide

end IrixMail.Jmap
