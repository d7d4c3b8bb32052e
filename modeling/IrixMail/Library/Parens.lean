import Mathlib.Data.List.Basic

/-!
# Parenthesised lists

Words, quoted strings and lists in parentheses, as text. `Spells text items` says
that the text is a way to write the items; spaces may stand anywhere between
items, and a word must be told apart from what follows. What is written is read
back: `parse_of_spells`.
-/

namespace Library.Parens
open List

inductive Node
  | word (text : List Char)
  | quoted (value : List Char)
  | list (items : List Node)

def isWordChar (c : Char) : Bool := c ≠ ' ' && c ≠ '(' && c ≠ ')' && c ≠ '"'

/-! ## Reading -/

def readQuoted : List Char → Option (List Char × List Char)
  | [] => none
  | '"' :: rest => some ([], rest)
  | '\\' :: c :: rest => (readQuoted rest).map fun r => (c :: r.1, r.2)
  | c :: rest => (readQuoted rest).map fun r => (c :: r.1, r.2)

/-- Items up to a closing parenthesis or the end. -/
def readNodes : ℕ → List Char → Option (List Node × List Char)
  | 0, _ => none
  | _ + 1, [] => some ([], [])
  | n + 1, c :: rest =>
    if c = ')' then some ([], c :: rest)
    else if c = ' ' then readNodes n rest
    else if c = '(' then
      match readNodes n rest with
      | some (items, ')' :: rest) => (readNodes n rest).map fun r => (.list items :: r.1, r.2)
      | _ => none
    else if c = '"' then
      match readQuoted rest with
      | some (value, rest) => (readNodes n rest).map fun r => (.quoted value :: r.1, r.2)
      | none => none
    else
      (readNodes n (rest.dropWhile isWordChar)).map fun r =>
        (.word (c :: rest.takeWhile isWordChar) :: r.1, r.2)

/-- The items of a text, if every parenthesis and every quote in it is closed. -/
def parse (text : List Char) : Option (List Node) :=
  match readNodes (text.length + 1) text with
  | some (items, []) => some items
  | _ => none

/-! ## Writing -/

def escape (value : List Char) : List Char :=
  value.flatMap fun c => if c = '"' ∨ c = '\\' then ['\\', c] else [c]

def Delimited (text : List Char) : Prop := ∀ c ∈ text.head?, isWordChar c = false

inductive Spells : List Char → List Node → Prop
  | nil : Spells [] []
  | space {t : List Char} {xs : List Node} : Spells t xs → Spells (' ' :: t) xs
  | quoted {t : List Char} {xs : List Node} (value : List Char) :
      Spells t xs → Spells ('"' :: (escape value ++ '"' :: t)) (.quoted value :: xs)
  | list {u t : List Char} {ys xs : List Node} :
      Spells u ys → Spells t xs → Spells ('(' :: (u ++ ')' :: t)) (.list ys :: xs)
  | word {t : List Char} {xs : List Node} {c : Char} {w : List Char} :
      isWordChar c → (∀ x ∈ w, isWordChar x) → Delimited t → Spells t xs →
      Spells (c :: (w ++ t)) (.word (c :: w) :: xs)

theorem delimited_nil : Delimited [] := nofun

theorem delimited_cons {c : Char} (hc : isWordChar c = false) (t : List Char) :
    Delimited (c :: t) := by
  intro x hx
  obtain rfl : c = x := by simpa using hx
  exact hc

theorem Delimited.append {t u : List Char} (ht : Delimited t) (hu : Delimited u) :
    Delimited (t ++ u) := by
  cases t with
  | nil => exact hu
  | cons c t => exact ht

namespace Spells
variable {t u : List Char} {xs ys : List Node}

theorem append (ht : Spells t xs) (hu : Spells u ys) (hdelim : Delimited u) :
    Spells (t ++ u) (xs ++ ys) := by
  induction ht with
  | nil => exact hu
  | space _ ih => exact .space ih
  | quoted value _ ih =>
    rw [cons_append, append_assoc]
    exact .quoted value ih
  | list hitems _ _ ih =>
    rw [cons_append, append_assoc, cons_append]
    exact .list hitems ih
  | word hc hw hd _ ih =>
    rw [cons_append, append_assoc]
    exact .word hc hw (hd.append hdelim) ih

theorem one_quoted (value : List Char) : Spells ('"' :: (escape value ++ ['"'])) [.quoted value] :=
  .quoted value .nil

theorem one_list (h : Spells t xs) : Spells ('(' :: (t ++ [')'])) [.list xs] :=
  .list h .nil

theorem one_word {c : Char} {w : List Char} (hc : isWordChar c) (hw : ∀ x ∈ w, isWordChar x) :
    Spells (c :: w) [.word (c :: w)] := by
  have h := Spells.word hc hw delimited_nil .nil
  rwa [append_nil] at h

end Spells

/-! ## What is written is read back -/

theorem readQuoted_escape (value rest : List Char) :
    readQuoted (escape value ++ '"' :: rest) = some (value, rest) := by
  induction value with
  | nil => rfl
  | cons c value ih =>
    unfold escape at ih ⊢
    rw [flatMap_cons, append_assoc]
    split
    next hc =>
      rcases hc with rfl | rfl
      · simp [readQuoted, ih]
      · simp [readQuoted, ih]
    next hc =>
      push Not at hc
      rw [singleton_append, readQuoted, ih]
      · rfl
      · exact hc.1
      · exact fun _ _ h _ => hc.2 h

variable {t : List Char} {xs : List Node}

theorem takeWhile_word {w t rest : List Char} (hw : ∀ x ∈ w, isWordChar x) (ht : Delimited t)
    (hrest : rest = [] ∨ rest.head? = some ')') :
    (w ++ (t ++ rest)).takeWhile isWordChar = w ∧
      (w ++ (t ++ rest)).dropWhile isWordChar = t ++ rest := by
  have hnext : Delimited (t ++ rest) := by
    refine ht.append ?_
    rcases hrest with rfl | hhead
    · exact delimited_nil
    · intro c hc
      rw [hhead] at hc
      obtain rfl := Option.some.inj hc
      rfl
  rw [takeWhile_append_of_pos hw, dropWhile_append_of_pos hw]
  cases htail : t ++ rest with
  | nil => simp
  | cons c tail =>
    have hc := hnext c (by rw [htail]; rfl)
    simp [hc]

theorem readNodes_of_spells (h : Spells t xs) {rest : List Char}
    (hrest : rest = [] ∨ rest.head? = some ')') {n : ℕ} (hn : t.length < n) :
    readNodes n (t ++ rest) = some (xs, rest) := by
  obtain ⟨n, rfl⟩ : ∃ k, n = k + 1 := ⟨n - 1, by omega⟩
  induction h generalizing rest n with
  | nil =>
    rcases hrest with rfl | hhead
    · rfl
    · cases rest with
      | nil => cases hhead
      | cons c rest =>
        obtain rfl : c = ')' := by simpa using hhead
        rfl
  | @space t xs _ ih =>
    obtain ⟨n, rfl⟩ : ∃ k, n = k + 1 := ⟨n - 1, by simp at hn; omega⟩
    exact ih hrest n (by simpa using hn)
  | @quoted t xs value _ ih =>
    simp only [length_cons, length_append] at hn
    obtain ⟨n, rfl⟩ : ∃ k, n = k + 1 := ⟨n - 1, by omega⟩
    have hnext := ih hrest n (by omega)
    simp [readNodes, readQuoted_escape, hnext]
  | @list u t ys xs _ _ ihitems ih =>
    simp only [length_cons, length_append] at hn
    obtain ⟨n, rfl⟩ : ∃ k, n = k + 1 := ⟨n - 1, by omega⟩
    have hitems := @ihitems (')' :: (t ++ rest)) (.inr rfl) n (by omega)
    have hnext := ih hrest n (by omega)
    simp [readNodes, hitems, hnext]
  | @word t xs c w hc hw hd _ ih =>
    simp only [length_cons, length_append] at hn
    obtain ⟨n, rfl⟩ : ∃ k, n = k + 1 := ⟨n - 1, by omega⟩
    have hnext := ih hrest n (by omega)
    obtain ⟨htake, hdrop⟩ := takeWhile_word hw hd hrest
    simp only [isWordChar, Bool.and_eq_true, decide_eq_true_eq] at hc
    simp [readNodes, hc, htake, hdrop, hnext]

theorem parse_of_spells (h : Spells t xs) : parse t = some xs := by
  have hread := readNodes_of_spells h (.inl rfl) (Nat.lt_succ_self t.length)
  rw [append_nil] at hread
  rw [parse, hread]

/-! ## The characters of a text -/

mutual
def Node.texts : Node → List (List Char)
  | .word text => [text]
  | .quoted value => [value]
  | .list items => textsOf items

def textsOf : List Node → List (List Char)
  | [] => []
  | x :: xs => x.texts ++ textsOf xs
end

theorem mem_escape {c : Char} {value : List Char} :
    c ∈ escape value → c = '\\' ∨ c ∈ value := by
  intro h
  obtain ⟨x, hx, hc⟩ := mem_flatMap.1 h
  split at hc
  · simp only [mem_cons, not_mem_nil, or_false] at hc
    rcases hc with hc | rfl
    · exact .inl hc
    · exact .inr hx
  · exact .inr (mem_singleton.1 hc ▸ hx)

theorem mem_escape_of_mem {c : Char} {value : List Char} (h : c ∈ value) : c ∈ escape value := by
  refine mem_flatMap.2 ⟨c, h, ?_⟩
  split <;> simp

/-- A text is made of the words and strings in it and of the marks between them. -/
theorem Spells.forall_char {p : Char → Prop} (hmarks : ∀ c ∈ [' ', '(', ')', '"', '\\'], p c)
    (h : Spells t xs) : (∀ c ∈ t, p c) ↔ ∀ v ∈ textsOf xs, ∀ c ∈ v, p c := by
  simp only [forall_mem_cons, not_mem_nil, false_imp_iff, implies_true, and_true] at hmarks
  obtain ⟨hspace, hopen, hclose, hquote, hslash⟩ := hmarks
  induction h with
  | nil => simp [textsOf]
  | space _ ih => simpa [hspace] using ih
  | quoted value _ ih =>
    have hvalue : (∀ c ∈ escape value, p c) ↔ ∀ c ∈ value, p c :=
      ⟨fun h c hc => h c (mem_escape_of_mem hc), fun h c hc => by
        rcases mem_escape hc with rfl | hc
        · exact hslash
        · exact h c hc⟩
    simp only [forall_mem_cons, forall_mem_append, textsOf, Node.texts, hquote, hvalue, ih,
      true_and, singleton_append]
  | list _ _ ihitems ih =>
    simp only [forall_mem_cons, forall_mem_append, textsOf, Node.texts, hopen, hclose,
      ihitems, ih, true_and]
  | word _ _ _ _ ih =>
    simp only [forall_mem_cons, forall_mem_append, textsOf, Node.texts, ih,
      singleton_append, and_assoc]

end Library.Parens
