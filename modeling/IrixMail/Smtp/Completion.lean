import IrixMail.Smtp.HeaderFields

/-!
# Completing the header of a submission

What stands before the first empty line of a submitted message is read here line by line.
The block in which `complete_headers` looks for a field goes on to the first two line
ends CR LF in a row, and so it can go on after that line.
-/

namespace IrixMail.Smtp
open List

def startsField (name row : Bytes) : Bool :=
  !(row.head?.any isBlank) && row[name.length]? == some 58 &&
    eqIgnoreCase (row.take name.length) name

def fieldCount (name raw : Bytes) : ℕ := (headerLines raw).countP (startsField name)

variable {raw name : Bytes} {host : String} {now : ℕ}

/-! ## The block and the lines before the first empty one -/

theorem headerBlock_cases (raw : Bytes) :
    headerBlock raw = raw ∨ ∃ pre post,
      raw = pre ++ [cr, lf, cr, lf] ++ post ∧ headerBlock raw = pre ++ [cr, lf] := by
  induction raw with
  | nil => exact .inl rfl
  | cons b raw ih =>
    rw [headerBlock]
    split
    next h =>
      obtain ⟨post, hpost⟩ := isPrefixOf_iff_prefix.1 h
      exact .inr ⟨[], post, hpost.symm, rfl⟩
    next =>
      rcases ih with hall | ⟨pre, post, rfl, hpre⟩
      · exact .inl (congrArg _ hall)
      · exact .inr ⟨b :: pre, post, rfl, congrArg _ hpre⟩

theorem headerLines_append_lf (xs ys : Bytes) (h : headerLines ys = []) :
    headerLines (xs ++ lf :: ys) = headerLines xs := by
  simp only [headerLines, linesOf, splitOn] at h ⊢
  rw [splitOnP_append_cons _ _ (by rfl), map_append, takeWhile_append, h, append_nil]
  split
  next hall => exact (( takeWhile_prefix _).eq_of_length hall).symm
  next => rfl

theorem headerLines_headerBlock (raw : Bytes) :
    headerLines (headerBlock raw) = headerLines raw := by
  rcases headerBlock_cases raw with hall | ⟨pre, post, rfl, hpre⟩
  · rw [hall]
  · have hraw : pre ++ [cr, lf, cr, lf] ++ post = (pre ++ [cr]) ++ lf :: (cr :: lf :: post) := by
      simp
    have hblock : pre ++ [cr, lf] = (pre ++ [cr]) ++ lf :: [] := by simp
    have hempty : headerLines (cr :: lf :: post) = [] := by
      simp [headerLines, linesOf, splitOn, splitOnP_cons_eq_if_modifyHead, stripCrlf, cr, lf]
    rw [hpre, hblock, hraw, headerLines_append_lf _ _ rfl, headerLines_append_lf _ _ hempty]

theorem hasField_of_fieldCount (h : 0 < fieldCount name raw) :
    hasField (headerBlock raw) name = true := by
  obtain ⟨row, hrow, hstarts⟩ := countP_pos_iff.1 h
  rw [← headerLines_headerBlock] at hrow
  exact any_eq_true.2 ⟨row, ( takeWhile_prefix _).subset hrow, hstarts⟩

/-! ## The lines that are added -/

/-- The three fields, each with the line that is added if the block has none. -/
def completions (raw : Bytes) (host : String) (now : ℕ) : List (Bytes × Bytes) :=
  [(asciiBytes "date", utf8Bytes ("Date: " ++ (Rfc822Date.fromTimestamp (asI64 now)).format)),
    (asciiBytes "message-id", utf8Bytes ("Message-ID: " ++ messageId raw host now)),
    (asciiBytes "mime-version", utf8Bytes "MIME-Version: 1.0")]

def completedNames : List Bytes :=
  [asciiBytes "date", asciiBytes "message-id", asciiBytes "mime-version"]

def addedLines (raw : Bytes) (host : String) (now : ℕ) : List Bytes :=
  ((completions raw host now).filter fun f => !hasField (headerBlock raw) f.1).map Prod.snd

theorem completeHeaders_eq (raw : Bytes) (host : String) (now : ℕ) :
    completeHeaders raw host now = joinLines (addedLines raw host now) ++ raw := by
  have hcrlf : utf8Bytes "\r\n" = [cr, lf] := by
    rw [utf8Bytes_eq]
    rfl
  have hmime : utf8Bytes "MIME-Version: 1.0\r\n" = utf8Bytes "MIME-Version: 1.0" ++ [cr, lf] := by
    rw [utf8Bytes_eq, utf8Bytes_eq]
    rfl
  unfold completeHeaders addedLines completions
  cases hdate : hasField (headerBlock raw) (asciiBytes "date") <;>
    cases hid : hasField (headerBlock raw) (asciiBytes "message-id") <;>
      cases hversion : hasField (headerBlock raw) (asciiBytes "mime-version") <;>
        simp [hdate, hid, hversion, hcrlf, hmime, joinLines, utf8Bytes_append]

theorem unbroken_hexPadded (width n : ℕ) : Unbroken (hexPadded width n) := by
  intro h
  rw [hexPadded, String.toList_ofList, mem_append] at h
  rcases h with h | h
  · exact absurd (eq_of_mem_replicate h) (by decide)
  · exact unbroken_toDigits 16 n h

theorem completions_free (hhost : Unbroken host) :
    ∀ f ∈ completions raw host now, lf ∉ f.2 ∧ f.2 ≠ [] := by
  have hid : Unbroken (messageId raw host now) := by
    simp +decide only [messageId, unbroken_append, unbroken_hexPadded, hhost, and_self]
  simp only [completions, forall_mem_cons, not_mem_nil, IsEmpty.forall_iff, implies_true, and_true]
  refine ⟨⟨(unbroken_append.2 ⟨by decide, unbroken_format _⟩).lf_not_mem, ?_⟩,
    ⟨(unbroken_append.2 ⟨by decide, hid⟩).lf_not_mem, ?_⟩, Unbroken.lf_not_mem (by decide), ?_⟩ <;>
  · simp [utf8Bytes_eq]

theorem startsField_completions (hname : name ∈ completedNames) :
    ∀ f ∈ completions raw host now, startsField name f.2 = (f.1 == name) := by
  have hdate : utf8Bytes "Date: " = [68, 97, 116, 101, 58, 32] := by
    rw [utf8Bytes_eq]
    rfl
  have hid : utf8Bytes "Message-ID: " = [77, 101, 115, 115, 97, 103, 101, 45, 73, 68, 58, 32] := by
    rw [utf8Bytes_eq]
    rfl
  simp only [completedNames, mem_cons, not_mem_nil, or_false] at hname
  simp only [completions, forall_mem_cons, not_mem_nil, IsEmpty.forall_iff, implies_true, and_true,
    utf8Bytes_append, hdate, hid]
  rcases hname with rfl | rfl | rfl <;>
  · refine ⟨?_, ?_, ?_⟩ <;>
    simp +decide [utf8Bytes_eq, startsField, eqIgnoreCase, asciiBytes]

theorem countP_addedLines (hname : name ∈ completedNames) :
    (addedLines raw host now).countP (startsField name) =
      if hasField (headerBlock raw) name then 0 else 1 := by
  rw [addedLines, countP_map, countP_filter]
  rw [countP_congr (q := fun f => f.1 == name && !hasField (headerBlock raw) name) fun f hf => by
    simp only [Function.comp, startsField_completions hname f hf, Bool.and_eq_true, beq_iff_eq]
    exact and_congr_right fun h => by rw [h]]
  simp only [completedNames, mem_cons, not_mem_nil, or_false] at hname
  rcases hname with rfl | rfl | rfl <;> split <;> simp +decide [completions, *]

theorem fieldCount_completeHeaders (hhost : Unbroken host) (hname : name ∈ completedNames) :
    fieldCount name (completeHeaders raw host now) =
      (if hasField (headerBlock raw) name then 0 else 1) + fieldCount name raw := by
  have hfree : ∀ l ∈ addedLines raw host now, lf ∉ l ∧ l ≠ [] := by
    intro l hl
    obtain ⟨f, hf, rfl⟩ := mem_map.1 hl
    exact completions_free hhost f (mem_filter.1 hf).1
  rw [fieldCount, completeHeaders_eq, headerLines_append hfree, countP_append,
    countP_addedLines hname]
  rfl

theorem completeHeaders_of_hasField
    (h : ∀ name ∈ completedNames, hasField (headerBlock raw) name = true) :
    completeHeaders raw host now = raw := by
  simp only [completedNames, forall_mem_cons] at h
  simp [completeHeaders, h]

/-- Every field is there once, or as often as before if it was, and a second completion
changes nothing, exactly if the block shows no field that is not before the first empty line. -/
theorem completeHeaders_complete_iff (hhost : Unbroken host) :
    (raw <:+ completeHeaders raw host now ∧
      (∀ name ∈ completedNames, fieldCount name (completeHeaders raw host now) =
        max 1 (fieldCount name raw)) ∧
      ∀ host' now', completeHeaders (completeHeaders raw host now) host' now' =
        completeHeaders raw host now) ↔
    ∀ name ∈ completedNames, hasField (headerBlock raw) name = true → 0 < fieldCount name raw := by
  constructor
  · rintro ⟨-, hcount, -⟩ name hname hfield
    have hone := hcount name hname
    rw [fieldCount_completeHeaders hhost hname, if_pos hfield] at hone
    omega
  · intro h
    have hcount : ∀ name ∈ completedNames, fieldCount name (completeHeaders raw host now) =
        max 1 (fieldCount name raw) := by
      intro name hname
      rw [fieldCount_completeHeaders hhost hname]
      split
      next hfield =>
        have hpos := h name hname hfield
        omega
      next hfield =>
        have hzero := mt hasField_of_fieldCount hfield
        omega
    refine ⟨completeHeaders_eq raw host now ▸ suffix_append _ _, hcount, fun host' now' => ?_⟩
    refine completeHeaders_of_hasField fun name hname => hasField_of_fieldCount ?_
    rw [hcount name hname]
    omega

theorem completeHeaders_crlf : fieldCount (asciiBytes "date")
    (completeHeaders (asciiBytes "Subject: x\r\n\r\nDate: y\r\n") "h" 0) = 1 :=
  ((completeHeaders_complete_iff (by decide)).2 (by decide +kernel)).2.1 _ mem_cons_self

/-- A line of the body counts as a field if the message has its line ends without CR. -/
theorem completeHeaders_bareLf : fieldCount (asciiBytes "date")
    (completeHeaders (asciiBytes "Subject: x\n\nDate: y\n") "h" 0) = 0 := by
  decide +kernel

end IrixMail.Smtp
