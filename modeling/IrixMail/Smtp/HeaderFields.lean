import IrixMail.Core.Utf8
import IrixMail.Smtp.Headers

/-!
# The fields of a header

The header of a message is what stands before its first empty line. It is cut into lines at
every line feed, and a line that starts with a blank continues the field before it. So a value
that is written into a field brings lines of its own if it holds a line feed.
-/

namespace IrixMail.Smtp
open Mail List

def linesOf (raw : Bytes) : List Bytes := (raw.splitOn lf).map stripCrlf

def headerLines (raw : Bytes) : List Bytes := (linesOf raw).takeWhile (· ≠ [])

def isFolded (line : Bytes) : Bool := line.head?.any isBlank

def unfoldLines : List Bytes → Bytes × List Bytes
  | [] => ([], [])
  | line :: rest =>
    let (tail, fields) := unfoldLines rest
    if isFolded line then (line ++ tail, fields) else ([], (line ++ tail) :: fields)

def fieldsOf (raw : Bytes) : List Bytes := (unfoldLines (headerLines raw)).2

def colon : UInt8 := 58

def fieldName (field : Bytes) : Bytes :=
  ((field.takeWhile (· != colon)).reverse.dropWhile isBlank).reverse

def joinLines (lines : List Bytes) : Bytes := lines.flatMap (· ++ [cr, lf])

/-- The lines that a text makes when CR LF follows it. -/
def rowsOf (text : Bytes) : List Bytes := linesOf (text ++ [cr])

/-! ## Lines -/

theorem linesOf_append (text rest : Bytes) :
    linesOf (text ++ [cr, lf] ++ rest) = rowsOf text ++ linesOf rest := by
  have happend : text ++ [cr, lf] ++ rest = (text ++ [cr]) ++ lf :: rest := by simp
  rw [rowsOf, linesOf, linesOf, linesOf, happend, splitOn, splitOn, splitOn,
    splitOnP_append_cons _ _ (by rfl), map_append]

theorem linesOf_joinLines (texts : List Bytes) (rest : Bytes) :
    linesOf (joinLines texts ++ rest) = texts.flatMap rowsOf ++ linesOf rest := by
  induction texts with
  | nil => rfl
  | cons text texts ih =>
    rw [joinLines, flatMap_cons, append_assoc, linesOf_append, flatMap_cons, append_assoc, ← ih]
    rfl

theorem stripCrlf_append_cr (line : Bytes) : stripCrlf (line ++ [cr]) = line := by
  rw [stripCrlf, getLast?_concat, if_pos rfl, dropLast_concat]

theorem rowsOf_eq_singleton {line : Bytes} (h : lf ∉ line) : rowsOf line = [line] := by
  have hnone : ∀ x ∈ line ++ [cr], (x == lf) = false := by
    intro x hx
    rcases mem_append.1 hx with hx | hx
    · exact beq_false_of_ne fun heq => h (heq ▸ hx)
    · rw [mem_singleton.1 hx]
      decide
  rw [rowsOf, linesOf, splitOn, splitOnP_eq_singleton hnone, map_singleton, stripCrlf_append_cr]

theorem splitOn_append {text : Bytes} (h : lf ∉ text) (rest : Bytes) :
    (text ++ rest).splitOn lf = (rest.splitOn lf).modifyHead (text ++ ·) := by
  obtain ⟨piece, pieces, hpieces⟩ := exists_cons_of_ne_nil (splitOnP_ne_nil (· == lf) rest)
  simp only [splitOn] at *
  induction text with
  | nil =>
    rw [nil_append, hpieces]
    rfl
  | cons b text ih =>
    obtain ⟨hb, htext⟩ := not_or.1 (mem_cons.not.1 h)
    rw [cons_append, splitOnP_cons_eq_if_modifyHead, if_neg (by simpa using Ne.symm hb), ih htext,
      hpieces]
    rfl

/-- What stands before a value is part of its first line only. -/
theorem rowsOf_append {text : Bytes} (h : lf ∉ text) (hlast : text.getLast? ≠ some cr)
    (value : Bytes) : ∃ first, rowsOf (text ++ value) = (text ++ first) :: (rowsOf value).tail := by
  obtain ⟨piece, pieces, hpieces⟩ :=
    exists_cons_of_ne_nil (splitOnP_ne_nil (· == lf) (value ++ [cr]))
  have hsplit := splitOn_append h (value ++ [cr])
  rw [splitOn, splitOn, hpieces, modifyHead_cons] at hsplit
  have hfirst : ∃ first, stripCrlf (text ++ piece) = text ++ first := by
    cases piece using reverseRecOn with
    | nil => exact ⟨[], by simp [stripCrlf, hlast]⟩
    | append_singleton piece b =>
      rw [stripCrlf, ← append_assoc, getLast?_concat, dropLast_concat, append_assoc]
      split
      next => exact ⟨piece, rfl⟩
      next => exact ⟨piece ++ [b], rfl⟩
  obtain ⟨first, hfirst⟩ := hfirst
  refine ⟨first, ?_⟩
  rw [rowsOf, rowsOf, linesOf, linesOf, append_assoc, splitOn, splitOn, hsplit, hpieces, map_cons,
    map_cons, hfirst, tail_cons]

theorem headerLines_append {lines : List Bytes} (hlines : ∀ l ∈ lines, lf ∉ l ∧ l ≠ [])
    (rest : Bytes) : headerLines (joinLines lines ++ rest) = lines ++ headerLines rest := by
  have hrows : lines.flatMap rowsOf = lines := by
    rw [flatMap_congr fun l hl => rowsOf_eq_singleton (hlines l hl).1, flatMap_singleton']
  rw [headerLines, linesOf_joinLines, hrows,
    takeWhile_append_of_pos fun l hl => by simpa using (hlines l hl).2]
  rfl

theorem headerLines_joinLines (texts : List Bytes) (body : Bytes) :
    headerLines (joinLines texts ++ ([cr, lf] ++ body)) =
      (texts.flatMap rowsOf).takeWhile (· ≠ []) := by
  have hend : linesOf ([cr, lf] ++ body) = [] :: linesOf body := linesOf_append [] body
  rw [headerLines, linesOf_joinLines, hend, takeWhile_append]
  split
  next hall =>
    rw [takeWhile_cons, if_neg (by simp), append_nil]
    exact (( takeWhile_prefix _).eq_of_length hall).symm
  next => rfl

/-! ## Values without a line feed -/

def Unbroken (s : String) : Prop := '\n' ∉ s.toList

instance (s : String) : Decidable (Unbroken s) := inferInstanceAs (Decidable ('\n' ∉ s.toList))

theorem unbroken_append {s t : String} : Unbroken (s ++ t) ↔ Unbroken s ∧ Unbroken t := by
  rw [Unbroken, String.toList_append, mem_append, not_or]
  rfl

theorem Unbroken.lf_not_mem {s : String} (h : Unbroken s) : lf ∉ utf8Bytes s := by
  intro hmem
  obtain ⟨c, hc, hnat⟩ := (mem_utf8Bytes (by decide)).1 hmem
  have heq : c = '\n' := Char.toNat_inj.1 hnat
  exact h (heq ▸ hc)

theorem mem_toDigitsCore {base fuel n : ℕ} {digits : List Char} {c : Char}
    (h : c ∈ Nat.toDigitsCore base fuel n digits) : c ∈ digits ∨ ∃ k, c = Nat.digitChar k := by
  induction fuel generalizing n digits with
  | zero => exact .inl h
  | succ fuel ih =>
    have hmore : ∀ {ds : List Char}, c ∈ Nat.digitChar (n % base) :: ds →
        c ∈ ds ∨ ∃ k, c = Nat.digitChar k := fun hc =>
      (mem_cons.1 hc).elim (fun heq => .inr ⟨_, heq⟩) .inl
    rw [Nat.toDigitsCore] at h
    split at h
    · exact hmore h
    · exact (ih h).elim hmore .inr

theorem digitChar_ne (k : ℕ) : Nat.digitChar k ≠ '\n' ∧ (Nat.digitChar k).toUpper ≠ '\n' := by
  by_cases hk : k < 16
  · exact (by decide : ∀ k < 16, Nat.digitChar k ≠ '\n' ∧ (Nat.digitChar k).toUpper ≠ '\n') k hk
  · have hstar : Nat.digitChar k = '*' := by
      unfold Nat.digitChar
      repeat rw [if_neg (by omega)]
    rw [hstar]
    decide

theorem unbroken_toDigits (base n : ℕ) : '\n' ∉ Nat.toDigits base n := by
  intro h
  obtain h | ⟨k, hk⟩ := mem_toDigitsCore h
  · cases h
  · exact (digitChar_ne k).1 hk.symm

theorem unbroken_toString (n : ℕ) : Unbroken (toString n) := by
  intro h
  rw [Nat.toString_eq_ofList_toDigits, String.toList_ofList] at h
  exact unbroken_toDigits 10 n h

theorem unbroken_padded (width n : ℕ) : Unbroken (padded width n) := by
  refine unbroken_append.2 ⟨fun h => ?_, unbroken_toString n⟩
  rw [String.toList_ofList] at h
  exact absurd (eq_of_mem_replicate h) (by decide)

theorem unbroken_getD {names : List String} (h : ∀ name ∈ names, Unbroken name) (i : ℕ) :
    Unbroken (names.getD i "") := by
  rw [getD_eq_getElem?_getD]
  cases hi : names[i]? with
  | none => decide
  | some name => exact h name (mem_of_getElem? hi)

theorem unbroken_format (d : Rfc822Date) : Unbroken d.format := by
  have hyear : Unbroken (Rfc822Date.yearText d.year) := by
    unfold Rfc822Date.yearText
    split
    · exact unbroken_append.2 ⟨by decide, unbroken_padded _ _⟩
    · exact unbroken_padded _ _
  have hweekday : Unbroken (["Sun", "Mon", "Tue", "Wed", "Thu", "Fri", "Sat"].getD d.weekday "") :=
    unbroken_getD (by decide) _
  have hmonth : Unbroken (Rfc822Date.months.getD (d.month - 1) "") := unbroken_getD (by decide) _
  simp +decide only [Rfc822Date.format, unbroken_append, hweekday, hmonth, hyear, unbroken_padded,
    and_self]

end IrixMail.Smtp
