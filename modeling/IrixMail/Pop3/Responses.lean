import IrixMail.Core.Utf8
import IrixMail.Pop3.Session

/-!
# What a client reads of a multi-line response

A client cuts the response at CRLF, takes the lines after the status line up to the first
that is a single dot, and takes one dot off the lines that start with one. What it reads
is the message with its line endings repaired.
-/

namespace IrixMail.Pop3
open List

def crlf : Bytes := [13, 10]

/-- The lines of a text, each with its CRLF; what follows the last CRLF is the last one. -/
def linesFrom (line : Bytes) : Bytes → List Bytes
  | [] => if line.isEmpty then [] else [line]
  | byte :: rest =>
    if byte = 10 ∧ line.getLast? = some 13 then (line ++ [byte]) :: linesFrom [] rest
    else linesFrom (line ++ [byte]) rest

def unstuff : Bytes → Bytes
  | [] => []
  | byte :: rest => if byte = 46 then rest else byte :: rest

/-- The text of the lines up to the one that is a single dot, and what comes after it. -/
def readLines : List Bytes → Option (Bytes × List Bytes)
  | [] => none
  | line :: rest =>
    if line = 46 :: crlf then some ([], rest)
    else (readLines rest).map fun x => (unstuff line ++ x.1, x.2)

def readResponse (response : Bytes) : Option (Bytes × List Bytes) :=
  readLines (linesFrom [] response).tail

/-- Every line feed that no carriage return precedes becomes a CRLF. -/
def repairFrom (last : UInt8) : Bytes → Bytes
  | [] => []
  | byte :: rest => (if byte = 10 ∧ last ≠ 13 then crlf else [byte]) ++ repairFrom byte rest

/-- A text that does not end in a line feed gets a final CRLF. -/
def repair (body : Bytes) : Bytes :=
  repairFrom 0 body ++ if body.getLast? = some 10 then [] else crlf

/-- The lines of a text as they stand, each with its line feed. -/
def lfLines (line : Bytes) : Bytes → List Bytes
  | [] => if line.isEmpty then [] else [line]
  | byte :: rest =>
    if byte = 10 then (line ++ [byte]) :: lfLines [] rest else lfLines (line ++ [byte]) rest

/-! ## Lines of the body -/

def stuff (line : Bytes) : Bytes := if line.head? = some 46 then 46 :: line else line

@[simp] theorem stuff_nil : stuff [] = [] := rfl

theorem unstuff_stuff (line : Bytes) : unstuff (stuff line) = line := by
  unfold stuff
  split
  · rfl
  next h =>
    cases line with
    | nil => rfl
    | cons byte rest => rw [unstuff, if_neg fun hb => h (by rw [hb]; rfl)]

theorem stuff_append_crlf (line : Bytes) :
    stuff (line ++ [13, 10]) = stuff line ++ [13, 10] := by
  cases line with
  | nil => rfl
  | cons first rest =>
    unfold stuff
    rw [cons_append, head?_cons, head?_cons]
    split <;> rfl

theorem stuff_ne_dot (line : Bytes) : stuff line ≠ 46 :: crlf := by
  intro h
  have hline := unstuff_stuff line
  rw [h] at hline
  rw [← hline] at h
  cases h

theorem stuff_concat {line : Bytes} {byte : UInt8} (h : line ≠ [] ∨ byte ≠ 46) :
    stuff (line ++ [byte]) = stuff line ++ [byte] := by
  cases line with
  | nil => simp [stuff, h.resolve_left (not_not_intro rfl)]
  | cons first rest =>
    unfold stuff
    rw [cons_append, head?_cons, head?_cons]
    split <;> rfl

theorem linesFrom_crlf (line rest : Bytes) :
    linesFrom line (13 :: 10 :: rest) = (line ++ [13, 10]) :: linesFrom [] rest := by
  simp [linesFrom]

theorem linesFrom_text {text : Bytes} (h : 10 ∉ text) (line rest : Bytes) :
    linesFrom line (text ++ rest) = linesFrom (line ++ text) rest := by
  induction text generalizing line with
  | nil => simp
  | cons byte text ih =>
    rw [mem_cons, not_or] at h
    rw [cons_append, linesFrom, if_neg fun hb => h.1 hb.1.symm, ih h.2, append_assoc]
    rfl

theorem readLines_stuff (line : Bytes) (rest : List Bytes) :
    readLines ((stuff line ++ [13, 10]) :: rest) =
      (readLines rest).map fun x => (line ++ [13, 10] ++ x.1, x.2) := by
  rw [← stuff_append_crlf, readLines, if_neg (stuff_ne_dot _), unstuff_stuff]

/-- The reader has gathered `line`, a line of the body that is not complete, stuffed. The body
is closed with CRLF unless it ends in a line feed. -/
theorem readLines_wire (body line : Bytes) (last : UInt8) {closing : Bytes}
    (hlast : last = 13 ↔ line.getLast? = some 13) (hline : 10 ∉ line)
    (hclosing : closing = crlf ∨ closing = [] ∧ (line ++ body = [] ∨ (line ++ body).getLast? = some 10)) :
    readLines (linesFrom (stuff line) (wireFrom line.isEmpty last body ++ (closing ++ [46, 13, 10]))) =
      some (line ++ repairFrom last body ++ closing, []) := by
  induction body generalizing line last with
  | nil =>
    rcases hclosing with rfl | ⟨rfl, hend⟩
    · have hread := linesFrom_crlf (stuff line) [46, 13, 10]
      have hdot : readLines (linesFrom [] [46, 13, 10]) = some ([], []) := rfl
      simp [wireFrom, repairFrom, crlf, hread, readLines_stuff, hdot]
    · obtain rfl : line = [] :=
        (append_nil line ▸ hend).resolve_right fun h => hline (mem_of_getLast? h)
      rfl
  | cons byte body ih =>
    by_cases hbyte : byte = 10
    · subst hbyte
      have hrest := ih [] 10 (by decide) (by simp) <| hclosing.imp_right fun h => by
        cases body <;> simp_all
      by_cases hcr : last = 13
      · obtain ⟨start, rfl⟩ := getLast?_eq_some_iff.1 (hlast.1 hcr)
        rw [stuff_concat (.inr (by decide))]
        simpa [wireFrom, hcr, linesFrom, readLines_stuff, repairFrom, crlf] using hrest
      · have hread := linesFrom_crlf (stuff line)
        simpa [wireFrom, hcr, hread, readLines_stuff, repairFrom, crlf] using hrest
    · have hrest := ih (line ++ [byte]) byte (by simp) (by simp [hline, Ne.symm hbyte])
        (by simpa using hclosing)
      have hstart : (line ++ [byte]).isEmpty = false := by cases line <;> rfl
      rw [hstart] at hrest
      by_cases hdot : line = [] ∧ byte = 46
      · obtain ⟨rfl, rfl⟩ := hdot
        simpa [wireFrom, linesFrom, stuff, repairFrom] using hrest
      · rw [stuff_concat (by tauto)] at hrest
        have hno : (line.isEmpty && byte = 46) = false := by simpa using hdot
        simpa [wireFrom, linesFrom, hbyte, hno, repairFrom, beq_eq_false_iff_ne.2 hbyte] using hrest

/-- What went out before the body does not matter to whether the whole ends in CRLF. -/
theorem suffix_wire_iff {body : Bytes} (hbody : body ≠ []) (out : Bytes) (atLineStart : Bool)
    (last : UInt8) (hlast : last = 13 → out.getLast? = some 13) :
    [13, 10] <:+ out ++ wireFrom atLineStart last body ↔ body.getLast? = some 10 := by
  induction body generalizing out atLineStart last with
  | nil => exact absurd rfl hbody
  | cons byte body ih =>
    cases body with
    | nil =>
      by_cases hbyte : byte = 10
      · by_cases hcr : last = 13
        · obtain ⟨start, rfl⟩ := getLast?_eq_some_iff.1 (hlast hcr)
          exact iff_of_true ⟨start, by simp [wireFrom, hbyte, hcr]⟩ (by rw [hbyte]; rfl)
        · exact iff_of_true ⟨out, by simp [wireFrom, hbyte, hcr]⟩ (by rw [hbyte]; rfl)
      · refine iff_of_false (fun h => ?_) (by simpa using hbyte)
        obtain ⟨start, heq⟩ := h
        have := congrArg getLast? heq
        simp [wireFrom, ← append_assoc] at this
        exact hbyte this.symm
    | cons next body =>
      rw [getLast?_cons_cons, ← ih (by simp) (out ++ ((if byte = 10 && last != 13 then [13] else []) ++
        (if atLineStart && byte = 46 then [46] else []) ++ [byte])) (byte == 10) byte fun h => by simp [h]]
      simp [wireFrom]

theorem closeLines_wire {body : Bytes} (h : body ≠ []) (out : Bytes) :
    closeLines (out ++ wireBody body) =
      out ++ (wireBody body ++ ((if body.getLast? = some 10 then [] else crlf) ++ [46, 13, 10])) := by
  have hend := suffix_wire_iff h out true 0 fun h => absurd h (by decide)
  unfold closeLines
  simp only [isSuffixOf_iff_suffix, wireBody, hend]
  split <;> simp [crlf]

theorem readResponse_wire {status : Bytes} (h : 10 ∉ status) (body : Bytes) :
    readResponse (status ++ crlf ++ (wireBody body ++
        ((if body.getLast? = some 10 then [] else crlf) ++ [46, 13, 10]))) =
      some (repair body, []) := by
  have hclosing : (if body.getLast? = some 10 then [] else crlf) = crlf ∨
      (if body.getLast? = some 10 then [] else crlf) = [] ∧
        ([] ++ body = [] ∨ ([] ++ body).getLast? = some 10) := by
    split <;> simp_all
  have hread := readLines_wire body [] 0 (by decide) (by simp) hclosing
  rw [readResponse, append_assoc, linesFrom_text h, nil_append, crlf, cons_append, singleton_append,
    linesFrom_crlf, tail_cons]
  exact hread

theorem wireFrom_append (front rest : Bytes) (atLineStart : Bool) (last : UInt8) :
    wireFrom atLineStart last (front ++ 10 :: rest) =
      wireFrom atLineStart last (front ++ [10]) ++ wireBody rest := by
  induction front generalizing atLineStart last with
  | nil =>
    have hlast : wireFrom true 10 rest = wireBody rest := by
      cases rest <;> simp [wireBody, wireFrom]
    simp [wireFrom, hlast]
  | cons byte front ih => simp [wireFrom, ih]

theorem takeLines_from (count : ℕ) (body line : Bytes) :
    line ++ takeLines (count + 1) body = ((lfLines line body).take (count + 1)).flatten := by
  induction body generalizing count line with
  | nil => cases line <;> simp [takeLines, lfLines]
  | cons byte body ih =>
    rw [takeLines, lfLines]
    split
    · cases count with
      | zero => simp [takeLines]
      | succ count => simpa using ih count []
    · simpa using ih count (line ++ [byte])

theorem takeLines_eq (count : ℕ) (body : Bytes) :
    takeLines count body = ((lfLines [] body).take count).flatten := by
  cases count with
  | zero => simp [takeLines]
  | succ count => exact takeLines_from count body []

theorem lf_not_mem_utf8Bytes {s : String} (h : '\n' ∉ s.toList) : 10 ∉ utf8Bytes s := by
  intro hmem
  obtain ⟨c, hc, hten⟩ := (mem_utf8Bytes (by decide)).1 hmem
  obtain rfl : c = '\n' := Char.toNat_inj.1 hten
  exact h hc

theorem readResponse_retr (size : ℕ) (body : Bytes) :
    readResponse (retrResponse size body) = some (repair body, []) := by
  have hstatus : 10 ∉ utf8Bytes s!"+OK {size} octets" := by
    refine lf_not_mem_utf8Bytes fun h => ?_
    have hdigit : '\n' ∈ Nat.toDigits 10 size := by
      simpa [show '\n' ∉ (toString "+OK ").toList by decide,
        show '\n' ∉ (toString " octets").toList by decide] using h
    exact absurd (Nat.isDigit_of_mem_toDigits (by decide) (le_refl 10) hdigit) (by decide)
  have hline : utf8Bytes s!"+OK {size} octets\r\n" = utf8Bytes s!"+OK {size} octets" ++ crlf := by
    have hcrlf : utf8Bytes "\r\n" = crlf := by rw [utf8Bytes_eq]; decide
    rw [← hcrlf, ← utf8Bytes_append]
    simp [String.append_assoc]
    rfl
  rw [retrResponse, hline, ← readResponse_wire hstatus body]
  cases body with
  | nil => rfl
  | cons byte rest =>
    have hclose := closeLines_wire (cons_ne_nil byte rest) []
    rw [nil_append, nil_append] at hclose
    rw [hclose]

theorem readResponse_top (front body : Bytes) (count : ℕ) :
    readResponse (topResponse (front ++ [10]) body count) =
      some (repair (front ++ [10] ++ ((lfLines [] body).take count).flatten), []) := by
  have hwire (rest : Bytes) :
      wireBody (front ++ [10]) ++ wireBody rest = wireBody (front ++ [10] ++ rest) := by
    rw [append_assoc]
    exact (wireFrom_append front rest true 0).symm
  have hline : utf8Bytes "+OK\r\n" = utf8Bytes "+OK" ++ crlf := by
    rw [utf8Bytes_eq, utf8Bytes_eq]
    decide
  rw [topResponse, append_assoc, hwire, closeLines_wire (by simp), hline, takeLines_eq]
  exact readResponse_wire (lf_not_mem_utf8Bytes (by decide)) _

/-- A client reads the message back with its line endings repaired, and the line that ends
the response is its last; of TOP it reads the header and the first lines of the body. -/
theorem responses_read_back :
    (∀ (size : ℕ) (body : Bytes), readResponse (retrResponse size body) = some (repair body, [])) ∧
    ∀ (front body : Bytes) (count : ℕ), readResponse (topResponse (front ++ [10]) body count) =
      some (repair (front ++ [10] ++ ((lfLines [] body).take count).flatten), []) :=
  ⟨readResponse_retr, readResponse_top⟩

end IrixMail.Pop3
