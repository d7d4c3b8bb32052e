import IrixMail.Core.Utf8
import IrixMail.Imap.Envelope
import IrixMail.Imap.Parser
import Mathlib.Data.List.Forall2

/-!
# Names in LIST

A pattern is matched against the name of a mailbox octet by octet, and a name that is
listed is written as a quoted string, which the tokenizer reads back.
-/

namespace IrixMail.Imap
open List Parsing

/-! ## Patterns -/

def anything : UInt8 := 42
def withinLevel : UInt8 := 37

def matchesPattern (delim : UInt8) : Bytes → Bytes → Bool
  | [], name => name.isEmpty
  | first :: pattern, name =>
    if first = anything then
      matchesPattern delim pattern name ||
        match name with
        | [] => false
        | _ :: name => matchesPattern delim (first :: pattern) name
    else if first = withinLevel then
      matchesPattern delim pattern name ||
        match name with
        | [] => false
        | b :: name => b != delim && matchesPattern delim (first :: pattern) name
    else
      match name with
      | [] => false
      | b :: name => b == first && matchesPattern delim pattern name
termination_by pattern name => pattern.length + name.length

/-- The pieces of a name that an octet of a pattern takes. -/
def Takes (delim first : UInt8) (piece : Bytes) : Prop :=
  if first = anything then True
  else if first = withinLevel then delim ∉ piece
  else piece = [first]

def Splits (delim : UInt8) (pattern name : Bytes) : Prop :=
  ∃ pieces, Forall₂ (Takes delim) pattern pieces ∧ pieces.flatten = name

variable {delim first : UInt8} {pattern name : Bytes}

theorem splits_nil : Splits delim [] name ↔ name = [] := by
  simp [Splits, forall₂_nil_left_iff, eq_comm]

theorem splits_cons : Splits delim (first :: pattern) name ↔
    ∃ piece rest, Takes delim first piece ∧ Splits delim pattern rest ∧ piece ++ rest = name := by
  constructor
  · rintro ⟨pieces, hpieces, rfl⟩
    obtain ⟨piece, rest, hpiece, hrest, rfl⟩ := forall₂_cons_left_iff.1 hpieces
    exact ⟨piece, rest.flatten, hpiece, ⟨rest, hrest, rfl⟩, rfl⟩
  · rintro ⟨piece, rest, hpiece, ⟨pieces, hpieces, rfl⟩, rfl⟩
    exact ⟨piece :: pieces, .cons hpiece hpieces, rfl⟩

/-- A wildcard takes nothing, or one more octet. -/
theorem splits_wild (hnil : Takes delim first [])
    (hcons : ∀ b piece, Takes delim first (b :: piece) ↔
      Takes delim first [b] ∧ Takes delim first piece) :
    Splits delim (first :: pattern) name ↔ Splits delim pattern name ∨
      ∃ b rest, name = b :: rest ∧ Takes delim first [b] ∧ Splits delim (first :: pattern) rest := by
  rw [splits_cons]
  constructor
  · rintro ⟨piece, rest, hpiece, hrest, rfl⟩
    cases piece with
    | nil => exact .inl hrest
    | cons b piece =>
      obtain ⟨hb, hpiece⟩ := (hcons b piece).1 hpiece
      exact .inr ⟨b, piece ++ rest, rfl, hb, splits_cons.2 ⟨piece, rest, hpiece, hrest, rfl⟩⟩
  · rintro (h | ⟨b, rest, rfl, hb, h⟩)
    · exact ⟨[], name, hnil, h, rfl⟩
    · obtain ⟨piece, rest, hpiece, hrest, rfl⟩ := splits_cons.1 h
      exact ⟨b :: piece, rest, (hcons b piece).2 ⟨hb, hpiece⟩, hrest, rfl⟩

theorem matchesPattern_iff_splits (delim : UInt8) (pattern name : Bytes) :
    matchesPattern delim pattern name = true ↔ Splits delim pattern name := by
  fun_induction matchesPattern delim pattern name with
  | case1 name => simp [splits_nil]
  | case2 pattern name ih ihname | case3 pattern name _ ih ihname =>
    rw [Bool.or_eq_true, ih, splits_wild (by simp [Takes]) (by simp +decide [Takes])]
    refine or_congr_right ?_
    cases name with
    | nil => simp
    | cons b name =>
      dsimp only at ihname
      simp +decide [Takes, ihname, ne_comm (a := b)]
  | case4 first pattern hany hlevel => simp [splits_cons, Takes, hany, hlevel]
  | case5 first pattern hany hlevel b name ih =>
    simp [splits_cons, Takes, hany, hlevel, ih, and_comm, eq_comm (a := b)]

theorem splits_twice {first : UInt8} (hwild : first ∈ [anything, withinLevel]) (pre post : Bytes) :
    Splits delim (pre ++ first :: first :: post) name ↔
      Splits delim (pre ++ first :: post) name := by
  have happend : ∀ p q, Takes delim first (p ++ q) ↔ Takes delim first p ∧ Takes delim first q := by
    simp only [mem_cons, not_mem_nil, or_false] at hwild
    rcases hwild with rfl | rfl <;> simp +decide [Takes]
  have hnil : Takes delim first [] := by
    simp only [mem_cons, not_mem_nil, or_false] at hwild
    rcases hwild with rfl | rfl <;> simp +decide [Takes]
  induction pre generalizing name with
  | nil =>
    simp only [nil_append]
    rw [splits_cons]
    constructor
    · rintro ⟨piece, rest, hpiece, hrest, rfl⟩
      obtain ⟨piece', rest, hpiece', hpost, rfl⟩ := splits_cons.1 hrest
      exact splits_cons.2 ⟨piece ++ piece', rest, (happend _ _).2 ⟨hpiece, hpiece'⟩, hpost, by simp⟩
    · intro h
      exact ⟨[], name, hnil, h, rfl⟩
  | cons b pre ih => simp only [cons_append, splits_cons, ih]

theorem matchesPattern_spec (delim : UInt8) (pattern name : Bytes) :
    (matchesPattern delim pattern name = true ↔ Splits delim pattern name) ∧
      ∀ first ∈ [anything, withinLevel], ∀ pre post,
        matchesPattern delim (pre ++ first :: first :: post) name =
          matchesPattern delim (pre ++ first :: post) name := by
  refine ⟨matchesPattern_iff_splits .., fun first hfirst pre post => ?_⟩
  rw [Bool.eq_iff_iff, matchesPattern_iff_splits, matchesPattern_iff_splits,
    splits_twice hfirst]

/-! ## Quoted names -/

def quoted (name : String) : String :=
  "\"" ++ replace '"' "\\\"" (replace '\\' "\\\\" name) ++ "\""

def escapeByte (b : UInt8) : Bytes := if b = quote ∨ b = backslash then [backslash, b] else [b]

theorem utf8_escape (c : Char) :
    (if c = '"' ∨ c = '\\' then ['\\', c] else [c]).flatMap String.utf8EncodeChar =
      (String.utf8EncodeChar c).flatMap escapeByte := by
  split_ifs with hc
  · rcases hc with rfl | rfl <;> decide
  · have hplain : ∀ b ∈ String.utf8EncodeChar c, escapeByte b = [b] := by
      intro b hb
      refine if_neg ?_
      rintro (rfl | rfl)
      · exact hc (.inl (Char.toNat_inj.1 ((mem_utf8EncodeChar (by decide)).1 hb)))
      · exact hc (.inr (Char.toNat_inj.1 ((mem_utf8EncodeChar (by decide)).1 hb)))
    rw [flatMap_singleton, flatMap_congr hplain, flatMap_singleton']

theorem utf8Bytes_quoted (name : String) :
    utf8Bytes (quoted name) = quote :: ((utf8Bytes name).flatMap escapeByte ++ [quote]) := by
  have hchars : (quoted name).toList = '"' :: (Library.Parens.escape name.toList ++ ['"']) :=
    toList_qstring name
  simp only [utf8Bytes_eq, hchars, Library.Parens.escape, flatMap_cons, flatMap_append,
    flatMap_assoc, utf8_escape]
  rfl

theorem quotedFrom_escaped (d : Decoding) (bytes buf rest : Bytes) :
    quotedFrom d buf (bytes.flatMap escapeByte ++ quote :: rest) =
      .ok (.quoted (d.lossy (buf ++ bytes)), rest) := by
  induction bytes generalizing buf with
  | nil =>
    rw [flatMap_nil, nil_append, quotedFrom.eq_def]
    simp
  | cons b bytes ih =>
    rw [flatMap_cons, append_assoc, escapeByte, quotedFrom.eq_def]
    split_ifs with hb
    · simp +decide [ih]
    · simp [not_or.1 hb, ih]

/-- Whatever follows a quoted name, the tokenizer reads the name and goes on after it. -/
theorem tokenize_quoted {d : Decoding} (hd : ∀ s, d.lossy (utf8Bytes s) = s) (name : String) :
    tokenize d (utf8Bytes (quoted name)) = .ok [.quoted name] ∧
      (Token.quoted name).asStr d = some name ∧
      ∀ n rest, token d (n + 1) (utf8Bytes (quoted name) ++ rest) = .ok (.quoted name, rest) := by
  have htoken : ∀ n rest,
      token d (n + 1) (utf8Bytes (quoted name) ++ rest) = .ok (.quoted name, rest) := by
    intro n rest
    rw [utf8Bytes_quoted, cons_append, append_assoc, token]
    simp +decide [quotedFrom_escaped, hd]
  refine ⟨?_, rfl, htoken⟩
  have hfirst := htoken (2 * (utf8Bytes (quoted name)).length) []
  have hskip : skipSpaces (utf8Bytes (quoted name)) = utf8Bytes (quoted name) := by
    rw [utf8Bytes_quoted]
    rfl
  rw [append_nil, utf8Bytes_quoted] at hfirst
  rw [tokenize, tokens, hskip, utf8Bytes_quoted]
  simp only [hfirst, tokens, skipSpaces, dropWhile_nil, bind, Except.bind, pure, Except.pure]

theorem tokenize_quoted_utf8 :
    tokenize ⟨fun b => (fromUtf8 b).getD "", fromUtf8⟩ (utf8Bytes (quoted "a\"b")) =
      .ok [.quoted "a\"b"] :=
  (tokenize_quoted (fun s => by simp [fromUtf8_utf8Bytes]) _).1

end IrixMail.Imap
