import IrixMail.Smtp.Stream

/-!
# Where a message ends

A sender doubles the dot at the start of a line and ends the message with a
lone dot. It ends lines with CR LF. The server also takes a bare LF for the end
of a line, and the end of the stream as well, so that a lone dot on such a line
ends the message before its time.
-/

namespace IrixMail.Smtp
open List

/-! ## The sender -/

def dotstuffFrom : Bool → Bool → Bytes → Bytes
  | _, _, [] => []
  | start, afterCr, b :: m =>
    if start && b == dot then dot :: dot :: dotstuffFrom false false m
    else b :: dotstuffFrom (afterCr && b == lf) (b == cr) m

def dotstuff (m : Bytes) : Bytes := dotstuffFrom true false m

def BareDot (m : Bytes) : Prop :=
  ∃ u v, m = u ++ lf :: dot :: v ∧ u.getLast? ≠ some cr ∧ ([lf] <+: v ∨ [cr, lf] <+: v)

/-- The stream has not come to CR LF, dot, CR LF; the CR LF of the command before counts. -/
def Unterminated (s : Bytes) : Prop := ¬ [cr, lf, dot, cr, lf] <:+: cr :: lf :: s

/-- A lone dot on a line that ends in any way the server knows. -/
def DotLine (s : Bytes) : Prop :=
  ∃ u v, s = u ++ dot :: v ∧ (u = [] ∨ u.getLast? = some lf) ∧
    ([lf] <+: v ∨ [cr, lf] <+: v ∨ v = [] ∨ v = [cr])

instance (s : Bytes) : Decidable (Unterminated s) := inferInstanceAs (Decidable (¬ _))

/-! ## Lone dots -/

def LoneDot (line : Bytes) : Prop := line = [dot] ∨ line = [dot, cr]

instance (line : Bytes) : Decidable (LoneDot line) := inferInstanceAs (Decidable (_ ∨ _))

/-- The line here is a lone dot; `atEnd` says that the stream ends with `s`. -/
def DotHere (atEnd : Prop) (s : Bytes) : Prop :=
  [dot, lf] <+: s ∨ [dot, cr, lf] <+: s ∨ atEnd ∧ LoneDot s

/-- Some line is a lone dot; `start` says that a line starts here. -/
def HasDot (atEnd : Prop) : Prop → Bytes → Prop
  | _, [] => False
  | start, b :: s => start ∧ DotHere atEnd (b :: s) ∨ HasDot atEnd (b = lf) s

variable {line : Bytes}

theorem stripCrlf_eq_dot : stripCrlf line = [dot] ↔ LoneDot line := by
  unfold stripCrlf LoneDot
  constructor
  · intro h
    split at h
    next hlast =>
      have hsplit := dropLast_append_getLast? cr hlast
      rw [h] at hsplit
      exact .inr hsplit.symm
    next => exact .inl h
  · rintro (rfl | rfl) <;> decide

theorem dotHere_line (hline : lf ∉ line) (atEnd : Prop) (rest : Bytes) :
    DotHere atEnd (line ++ lf :: rest) ↔ LoneDot line := by
  unfold DotHere LoneDot
  match line with
  | [] => simp [dot, lf]
  | [a] =>
    have hcr : cr ≠ lf := by decide
    simp [hcr, hcr.symm, eq_comm (a := dot) (b := a)]
  | [a, b] =>
    have hb : lf ≠ b := by
      rintro rfl
      simp at hline
    simp [hb, and_congr (eq_comm (a := dot) (b := a)) (eq_comm (a := cr) (b := b))]
  | a :: b :: c :: line =>
    have hbc : lf ≠ b ∧ lf ≠ c := by
      constructor <;> rintro rfl <;> simp at hline
    simp [hbc.1, hbc.2]

theorem dotHere_end (hline : lf ∉ line) (atEnd : Prop) :
    DotHere atEnd line ↔ atEnd ∧ LoneDot line := by
  unfold DotHere
  have hno : ∀ s : Bytes, lf ∈ s → ¬ s <+: line := fun s hs h => hline (h.subset hs)
  simp [hno [dot, lf] (by simp), hno [dot, cr, lf] (by simp)]

theorem hasDot_line (hline : lf ∉ line) (atEnd start : Prop) (rest : Bytes) :
    HasDot atEnd start (line ++ lf :: rest) ↔ start ∧ LoneDot line ∨ HasDot atEnd True rest := by
  rw [← dotHere_line hline atEnd rest]
  induction line generalizing start with
  | nil => simp [HasDot]
  | cons b line ih =>
    rw [mem_cons, not_or] at hline
    have hb : (b = lf) = False := by simpa using Ne.symm hline.1
    simp only [cons_append, HasDot, hb, ih hline.2, false_and, false_or]

theorem hasDot_end (hline : lf ∉ line) (atEnd start : Prop) :
    HasDot atEnd start line ↔ start ∧ atEnd ∧ LoneDot line := by
  rw [← dotHere_end hline]
  induction line generalizing start with
  | nil => simp [HasDot, DotHere, LoneDot]
  | cons b line ih =>
    rw [mem_cons, not_or] at hline
    have hb : (b = lf) = False := by simpa using Ne.symm hline.1
    simp only [HasDot, hb, ih hline.2, false_and, or_false]

theorem dotHere_dotstuffFrom (afterCr : Bool) (b : UInt8) (m : Bytes) :
    DotHere False (b :: dotstuffFrom false afterCr m) ↔ DotHere False (b :: m) := by
  unfold DotHere
  match m with
  | [] => simp [dotstuffFrom]
  | [c] => simp [dotstuffFrom]
  | c :: d :: m =>
    by_cases hc : c = lf
    · have hcr : cr ≠ lf := by decide
      simp [dotstuffFrom, hc, hcr]
    · simp [dotstuffFrom, hc]

/-- Some line that follows a bare LF is a lone dot; `bare` says that such a line
starts here. -/
def HasBareDot : Prop → Bool → Bytes → Prop
  | _, _, [] => False
  | bare, afterCr, b :: m =>
    bare ∧ DotHere False (b :: m) ∨ HasBareDot (b = lf ∧ afterCr = false) (b == cr) m

theorem hasDot_dotstuffFrom (m : Bytes) (start afterCr : Bool) (bare : Prop)
    (h : start = true → ¬ bare) :
    HasDot False (start = true ∨ bare) (dotstuffFrom start afterCr m) ↔
      HasBareDot bare afterCr m := by
  induction m generalizing start afterCr bare with
  | nil => simp [dotstuffFrom, HasDot, HasBareDot]
  | cons b m ih =>
    have hrest := ih (afterCr && b == lf) (b == cr) (b = lf ∧ afterCr = false)
      (by cases afterCr <;> simp)
    have hlf : ((afterCr && b == lf) = true ∨ b = lf ∧ afterCr = false) = (b = lf) := by
      cases afterCr <;> simp
    rw [hlf] at hrest
    cases start with
    | false =>
      have hhere : DotHere False (b :: dotstuffFrom (afterCr && b == lf) (b == cr) m) ↔
          DotHere False (b :: m) := by
        cases hstart : afterCr && b == lf with
        | false => exact dotHere_dotstuffFrom (b == cr) b m
        | true =>
          have hb : dot ≠ b := by
            rintro rfl
            simp [dot, lf] at hstart
          simp [DotHere, hb]
      simp only [dotstuffFrom, Bool.false_and, Bool.false_eq_true, if_false, false_or, HasDot,
        HasBareDot, hrest, hhere]
    | true =>
      have hbare : bare = False := by simpa using h
      by_cases hdot : b = dot
      · subst hdot
        have hdotlf : (dot = lf) = False := by decide
        have hdotcr : (dot == cr) = false := by decide
        have hhere : ¬ DotHere False (dot :: dot :: dotstuffFrom false false m) := by
          simp [DotHere, lf, dot, cr]
        have hinside := ih false false False (by simp)
        simp only [Bool.false_eq_true, false_or] at hinside
        simp [dotstuffFrom, HasDot, HasBareDot, hbare, hhere, hdotlf, hdotcr, hinside]
      · have hhere : ¬ DotHere False (b :: dotstuffFrom (afterCr && b == lf) (b == cr) m) := by
          simp [DotHere, Ne.symm hdot]
        simp [dotstuffFrom, hdot, HasDot, HasBareDot, hbare, hhere, hrest]

theorem dotHere_iff {m : Bytes} :
    DotHere False m ↔ ∃ v, m = dot :: v ∧ ([lf] <+: v ∨ [cr, lf] <+: v) := by
  unfold DotHere
  cases m with
  | nil => simp
  | cons b m =>
    simp only [cons_prefix_cons, false_and, or_false, cons.injEq, ← and_or_left]
    constructor
    · rintro ⟨rfl, h⟩
      exact ⟨m, ⟨rfl, rfl⟩, h⟩
    · rintro ⟨_, ⟨rfl, rfl⟩, h⟩
      exact ⟨rfl, h⟩

theorem hasBareDot_iff (m : Bytes) (bare : Prop) (afterCr : Bool) :
    HasBareDot bare afterCr m ↔ bare ∧ DotHere False m ∨
      ∃ u v, m = u ++ lf :: dot :: v ∧ (u = [] → afterCr = false) ∧ u.getLast? ≠ some cr ∧
        ([lf] <+: v ∨ [cr, lf] <+: v) := by
  induction m generalizing bare afterCr with
  | nil => simp [HasBareDot, DotHere]
  | cons b m ih =>
    simp only [HasBareDot, ih, dotHere_iff (m := m)]
    refine or_congr_right ⟨?_, ?_⟩
    · rintro (⟨⟨rfl, hcr⟩, v, rfl, hv⟩ | ⟨u, v, rfl, hb, hlast, hv⟩)
      · exact ⟨[], v, rfl, fun _ => hcr, by simp, hv⟩
      · refine ⟨b :: u, v, rfl, by simp, ?_, hv⟩
        cases u with
        | nil => simpa using hb rfl
        | cons c u => simpa using hlast
    · rintro ⟨_ | ⟨c, u⟩, v, hm, hb, hlast, hv⟩
      · obtain ⟨rfl, rfl⟩ := cons.inj hm
        exact .inl ⟨⟨rfl, hb rfl⟩, v, rfl, hv⟩
      · obtain ⟨rfl, rfl⟩ := cons.inj hm
        refine .inr ⟨u, v, rfl, ?_, ?_, hv⟩
        · rintro rfl
          simpa using hlast
        · cases u with
          | nil => simp
          | cons c u => simpa using hlast

theorem hasDot_dotstuff (m : Bytes) : HasDot False True (dotstuff m) ↔ BareDot m := by
  have h := hasDot_dotstuffFrom m true false False (by simp)
  simp only [true_or] at h
  rw [dotstuff, h, hasBareDot_iff]
  simp [BareDot]

theorem dotHere_atEnd_iff {s : Bytes} : DotHere True s ↔
    ∃ v, s = dot :: v ∧ ([lf] <+: v ∨ [cr, lf] <+: v ∨ v = [] ∨ v = [cr]) := by
  unfold DotHere LoneDot
  cases s with
  | nil => simp
  | cons b s =>
    simp only [cons_prefix_cons, true_and, cons.injEq, eq_comm (a := b),
      ← and_or_left]
    constructor
    · rintro ⟨rfl, h⟩
      exact ⟨s, ⟨rfl, rfl⟩, h⟩
    · rintro ⟨_, ⟨rfl, rfl⟩, h⟩
      exact ⟨rfl, h⟩

theorem hasDot_iff (s : Bytes) (start : Prop) : HasDot True start s ↔ start ∧ DotHere True s ∨
    ∃ u v, s = u ++ lf :: dot :: v ∧ ([lf] <+: v ∨ [cr, lf] <+: v ∨ v = [] ∨ v = [cr]) := by
  induction s generalizing start with
  | nil => simp [HasDot, DotHere, LoneDot]
  | cons b s ih =>
    simp only [HasDot, ih, dotHere_atEnd_iff (s := s)]
    refine or_congr_right ⟨?_, ?_⟩
    · rintro (⟨rfl, v, rfl, hv⟩ | ⟨u, v, rfl, hv⟩)
      · exact ⟨[], v, rfl, hv⟩
      · exact ⟨b :: u, v, rfl, hv⟩
    · rintro ⟨_ | ⟨c, u⟩, v, hs, hv⟩
      · obtain ⟨rfl, rfl⟩ := cons.inj hs
        exact .inl ⟨rfl, v, rfl, hv⟩
      · obtain ⟨rfl, rfl⟩ := cons.inj hs
        exact .inr ⟨u, v, rfl, hv⟩

theorem hasDot_iff_dotLine (s : Bytes) : HasDot True True s ↔ DotLine s := by
  rw [hasDot_iff, true_and, dotHere_atEnd_iff]
  constructor
  · rintro (⟨v, rfl, hv⟩ | ⟨u, v, rfl, hv⟩)
    · exact ⟨[], v, rfl, .inl rfl, hv⟩
    · exact ⟨u ++ [lf], v, by simp, .inr (by simp), hv⟩
  · rintro ⟨u, v, rfl, rfl | hu, hv⟩
    · exact .inl ⟨v, rfl, hv⟩
    · refine .inr ⟨u.dropLast, v, ?_, hv⟩
      have hsplit := dropLast_append_getLast? lf hu
      nth_rewrite 1 [← hsplit]
      simp

/-! ## The server -/

section Server
variable (failure : Option Error)

theorem readDataLine_append (buf : Bytes) (hbuf : buf.length ≤ maxMessageSize + 1)
    (hline : lf ∉ line) (more : Bytes) : readDataLine failure buf (line ++ more) =
      readDataLine failure ((buf ++ line).take (maxMessageSize + 1)) more := by
  induction line generalizing buf with
  | nil => simp [take_of_length_le hbuf]
  | cons b line ih =>
    rw [mem_cons, not_or] at hline
    simp only [cons_append, readDataLine, Ne.symm hline.1, if_false]
    split
    next hroom =>
      rw [ih _ (by simpa using hroom) hline.2, append_assoc, singleton_append]
    next hfull =>
      have hlen : maxMessageSize + 1 ≤ buf.length := by omega
      rw [ih _ hbuf hline.2, take_append_of_le_length hlen, take_append_of_le_length hlen]

theorem readDataLine_line (hline : lf ∉ line) (rest : Bytes) :
    readDataLine failure [] (line ++ lf :: rest) =
      .ok (some (line.take (maxMessageSize + 1)), rest) := by
  rw [readDataLine_append failure [] (Nat.zero_le _) hline]
  simp [readDataLine]

theorem readDataLine_end (hline : lf ∉ line) :
    readDataLine failure [] line = lineAtEnd failure (line.take (maxMessageSize + 1)) := by
  have h := readDataLine_append failure [] (Nat.zero_le _) hline []
  simpa [readDataLine] using h

theorem loneDot_take : LoneDot (line.take (maxMessageSize + 1)) ↔ LoneDot line := by
  by_cases hshort : line.length ≤ maxMessageSize + 1
  · rw [take_of_length_le hshort]
  · have hcut : (line.take (maxMessageSize + 1)).length = maxMessageSize + 1 := by
      rw [length_take]
      omega
    have hlong : ∀ l : Bytes, LoneDot l → l.length ≤ 2 := by
      rintro l (rfl | rfl) <;> simp
    constructor <;> intro h
    · have := hlong _ h
      rw [hcut] at this
      exact absurd this (by decide)
    · have := hlong _ h
      exact absurd this (by simp only [maxMessageSize] at hshort ⊢; omega)

theorem length_stripCrlf_le (line : Bytes) : (stripCrlf line).length ≤ line.length := by
  unfold stripCrlf
  split <;> simp

theorem length_unstuff_le (line : Bytes) : (unstuff line).length ≤ line.length := by
  unfold unstuff
  split <;> simp

variable {failure}

section Step
variable (n : ℕ) (receiver : BodyReceiver) (overflowed : Bool) {incoming line rest : Bytes}

theorem readDataLines_dot (hread : readDataLine failure [] incoming = .ok (some line, rest))
    (hdot : LoneDot line) : readDataLines failure (n + 1) receiver overflowed incoming =
      .ok (if overflowed then none else some receiver.body, rest) := by
  simp only [readDataLines, hread, stripCrlf_eq_dot.2 hdot]
  cases overflowed <;> rfl

theorem readDataLines_other (hread : readDataLine failure [] incoming = .ok (some line, rest))
    (hdot : ¬ LoneDot line) : ∃ receiver' overflowed',
      readDataLines failure (n + 1) receiver overflowed incoming =
        readDataLines failure n receiver' overflowed' rest ∧
      (overflowed = false → receiver.body.length + line.length + 2 ≤ receiver.maxSize →
        overflowed' = false ∧ receiver'.maxSize = receiver.maxSize ∧
          receiver'.body.length ≤ receiver.body.length + line.length + 2) := by
  have hne : stripCrlf line ≠ [dot] := fun h => hdot (stripCrlf_eq_dot.1 h)
  simp only [readDataLines, hread, hne, BodyReceiver.pushLine]
  cases overflowed with
  | true => exact ⟨receiver, true, rfl, by simp⟩
  | false =>
    have hlen := Nat.le_trans (length_unstuff_le (stripCrlf line)) (length_stripCrlf_le line)
    simp only [Bool.false_eq_true, if_false]
    split_ifs with hlarge
    · exact ⟨receiver, true, rfl, fun _ hroom => absurd hlarge (by omega)⟩
    · refine ⟨_, false, rfl, fun _ _ => ⟨rfl, rfl, ?_⟩⟩
      simp only [length_append, length_cons, length_nil]
      omega

end Step

variable (failure)

theorem readDataLines_through {x : Bytes} (hx : x = [] ∨ x.getLast? = some lf)
    (hdot : ¬ HasDot False True x) (y : Bytes) (n : ℕ) (receiver : BodyReceiver)
    (overflowed : Bool) : ∃ n' receiver' overflowed', n ≤ n' + x.length ∧
      readDataLines failure n receiver overflowed (x ++ y) =
        readDataLines failure n' receiver' overflowed' y := by
  induction x using lines_induction generalizing n receiver overflowed with
  | last x hno =>
    have hnil : x = [] := hx.resolve_right fun h => hno (mem_of_getLast? h)
    subst hnil
    exact ⟨n, receiver, overflowed, by simp, rfl⟩
  | more line rest hline ih =>
    rw [hasDot_line hline, not_or] at hdot
    cases n with
    | zero => exact ⟨0, receiver, overflowed, Nat.zero_le _, rfl⟩
    | succ n =>
      have hrest : rest = [] ∨ rest.getLast? = some lf := by
        rcases rest with _ | ⟨b, rest⟩
        · exact .inl rfl
        · exact .inr (by simpa using hx)
      have hline' : ¬ LoneDot (line.take (maxMessageSize + 1)) := fun h =>
        hdot.1 ⟨trivial, loneDot_take.1 h⟩
      obtain ⟨receiver₁, overflowed₁, hstep, -⟩ := readDataLines_other n receiver overflowed
        (readDataLine_line failure hline (rest ++ y)) hline'
      obtain ⟨n', receiver₂, overflowed₂, hn, heq⟩ := ih hrest hdot.2 n receiver₁ overflowed₁
      refine ⟨n', receiver₂, overflowed₂, ?_, ?_⟩
      · rw [length_append, length_cons]
        omega
      · rw [append_assoc, cons_append, hstep, heq]

theorem readDataLines_early {x : Bytes} (hdot : HasDot False True x) (y : Bytes) {n : ℕ}
    (hn : x.length ≤ n) (receiver : BodyReceiver) (overflowed : Bool) :
    ∃ result z, readDataLines failure n receiver overflowed (x ++ y) = .ok (result, z ++ y) := by
  induction x using lines_induction generalizing n receiver overflowed with
  | last x hno =>
    rw [hasDot_end hno] at hdot
    exact hdot.2.1.elim
  | more line rest hline ih =>
    rw [length_append, length_cons] at hn
    obtain ⟨n, rfl⟩ : ∃ k, n = k + 1 := ⟨n - 1, by omega⟩
    rw [append_assoc, cons_append]
    have hread := readDataLine_line failure hline (rest ++ y)
    by_cases hlone : LoneDot line
    · exact ⟨_, rest, readDataLines_dot n receiver overflowed hread (loneDot_take.2 hlone)⟩
    · obtain ⟨receiver₁, overflowed₁, hstep, -⟩ :=
        readDataLines_other n receiver overflowed hread (mt loneDot_take.1 hlone)
      rw [hasDot_line hline] at hdot
      rw [hstep]
      exact ih (hdot.resolve_left fun h => hlone h.2) (by omega) _ _

end Server

/-! ## At the end of the stream -/

theorem readDataLine_rest (hline : lf ∉ line) (hne : line ≠ []) :
    readDataLine none [] line = .ok (some (line.take (maxMessageSize + 1)), []) := by
  rw [readDataLine_end none hline]
  cases line with
  | nil => exact absurd rfl hne
  | cons b line => rfl

theorem readDataLines_fails {s : Bytes} (hdot : ¬ HasDot True True s) (n : ℕ)
    (receiver : BodyReceiver) (overflowed : Bool) :
    readDataLines none n receiver overflowed s = .error closedDuringData := by
  induction s using lines_induction generalizing n receiver overflowed with
  | last line hline =>
    rw [hasDot_end hline] at hdot
    have hnone : ∀ n receiver overflowed,
        readDataLines none n receiver overflowed [] = .error closedDuringData := by
      rintro (_ | n) <;> intros <;> rfl
    rcases n with _ | n
    · rfl
    · by_cases hnil : line = []
      · rw [hnil, hnone]
      · have hline' : ¬ LoneDot (line.take (maxMessageSize + 1)) := fun h =>
          hdot ⟨trivial, trivial, loneDot_take.1 h⟩
        obtain ⟨_, _, hstep, -⟩ :=
          readDataLines_other n receiver overflowed (readDataLine_rest hline hnil) hline'
        rw [hstep, hnone]
  | more line rest hline ih =>
    rw [hasDot_line hline, not_or] at hdot
    rcases n with _ | n
    · rfl
    · have hline' : ¬ LoneDot (line.take (maxMessageSize + 1)) := fun h =>
        hdot.1 ⟨trivial, loneDot_take.1 h⟩
      obtain ⟨_, _, hstep, -⟩ :=
        readDataLines_other n receiver overflowed (readDataLine_line none hline rest) hline'
      rw [hstep, ih hdot.2]

def paddedLength (s : Bytes) : ℕ := s.length + s.count lf

theorem readDataLines_accepts {s : Bytes} (hdot : HasDot True True s) {n : ℕ} (hn : s.length ≤ n)
    {receiver : BodyReceiver} (hroom : receiver.body.length + paddedLength s ≤ receiver.maxSize) :
    ∃ body rest, readDataLines none n receiver false s = .ok (some body, rest) := by
  induction s using lines_induction generalizing n receiver with
  | last line hline =>
    rw [hasDot_end hline] at hdot
    have hne : line ≠ [] := by
      rintro rfl
      simp [LoneDot] at hdot
    obtain ⟨n, rfl⟩ : ∃ k, n = k + 1 := ⟨n - 1, by
      have := length_pos_iff.2 hne
      omega⟩
    exact ⟨_, _, readDataLines_dot n receiver false (readDataLine_rest hline hne)
      (loneDot_take.2 hdot.2.2)⟩
  | more line rest hline ih =>
    have hpadded : paddedLength (line ++ lf :: rest) = line.length + 2 + paddedLength rest := by
      simp only [paddedLength, length_append, length_cons, count_append,
        count_eq_zero_of_not_mem hline, count_cons_self]
      omega
    rw [length_append, length_cons] at hn
    obtain ⟨n, rfl⟩ : ∃ k, n = k + 1 := ⟨n - 1, by omega⟩
    have hread := readDataLine_line none hline rest
    have htake : (line.take (maxMessageSize + 1)).length ≤ line.length := length_take_le' _ _
    by_cases hlone : LoneDot line
    · exact ⟨_, _, readDataLines_dot n receiver false hread (loneDot_take.2 hlone)⟩
    · obtain ⟨receiver₁, overflowed₁, hstep, hkept⟩ :=
        readDataLines_other n receiver false hread (mt loneDot_take.1 hlone)
      obtain ⟨rfl, hmax, hbody⟩ := hkept rfl (by omega)
      rw [hasDot_line hline] at hdot
      rw [hstep]
      exact ih (hdot.resolve_left fun h => hlone h.2) (by omega) (by omega)

/-! ## Both sides -/

theorem getLast?_dotstuffFrom (m : Bytes) (start afterCr : Bool) :
    (dotstuffFrom start afterCr m).getLast? = m.getLast? := by
  induction m generalizing start afterCr with
  | nil => rfl
  | cons b m ih =>
    simp only [dotstuffFrom]
    split
    next h =>
      have hb : b = dot := by simpa using (Bool.and_eq_true_iff.1 h).2
      simp [getLast?_cons, ih, hb]
    next => simp [getLast?_cons, ih]

theorem ends_at_terminator_iff (failure : Option Error) {m : Bytes} (hm : [cr, lf] <:+ m)
    (t : Bytes) :
    (∃ result, readData failure (dotstuff m ++ [dot, cr, lf] ++ t) = .ok (result, t)) ↔
      ¬ BareDot m := by
  rw [← hasDot_dotstuff, readData, append_assoc]
  constructor
  · rintro ⟨result, hread⟩ hdot
    have hfuel : (dotstuff m).length ≤ (dotstuff m ++ ([dot, cr, lf] ++ t)).length + 1 := by
      rw [length_append]
      omega
    obtain ⟨result', z, hearly⟩ := readDataLines_early failure hdot ([dot, cr, lf] ++ t) hfuel
      (.new maxMessageSize) false
    rw [hearly, Except.ok.injEq, Prod.mk.injEq] at hread
    have hlen := congrArg length hread.2
    simp only [length_append, length_cons] at hlen
    omega
  · intro hdot
    obtain ⟨u, rfl⟩ := hm
    have hends : (dotstuff (u ++ [cr, lf])).getLast? = some lf := by
      rw [dotstuff, getLast?_dotstuffFrom]
      simp
    obtain ⟨n', receiver, overflowed, hn, hthrough⟩ := readDataLines_through failure (.inr hends)
      hdot ([dot, cr, lf] ++ t) ((dotstuff (u ++ [cr, lf]) ++ ([dot, cr, lf] ++ t)).length + 1)
      (.new maxMessageSize) false
    obtain ⟨n, rfl⟩ : ∃ k, n' = k + 1 := ⟨n' - 1, by
      rw [length_append] at hn
      omega⟩
    refine ⟨if overflowed then none else some receiver.body, ?_⟩
    rw [hthrough]
    exact readDataLines_dot n receiver overflowed
      (readDataLine_line failure (by decide : lf ∉ [dot, cr]) t) (loneDot_take.2 (.inr rfl))

theorem truncated_refused {s : Bytes} (h : ¬ DotLine s) (body rest : Bytes) :
    readData none s ≠ .ok (some body, rest) := by
  intro hread
  rw [readData, readDataLines_fails (mt (hasDot_iff_dotLine s).1 h)] at hread
  cases hread

theorem not_dotLine_of_refused {s : Bytes} (hsize : paddedLength s ≤ maxMessageSize)
    (hrefused : ∀ body rest, readData none s ≠ .ok (some body, rest)) : ¬ DotLine s := by
  rw [← hasDot_iff_dotLine]
  intro hdot
  have hroom : (BodyReceiver.new maxMessageSize).body.length + paddedLength s ≤
      (BodyReceiver.new maxMessageSize).maxSize := by simpa [BodyReceiver.new] using hsize
  obtain ⟨body, rest, hread⟩ := readDataLines_accepts hdot (Nat.le_succ s.length) hroom
  exact hrefused body rest hread

/-- A sender's message ends at its own terminator exactly if it has no lone dot
after a bare LF; a stream that never comes to a terminator is refused if it has no
lone dot on a line that ends in some other way, and only then if it has the size of a
message. -/
theorem data_framing_iff (failure : Option Error) (m t s : Bytes) :
    ([cr, lf] <:+ m →
      ((∃ result, readData failure (dotstuff m ++ [dot, cr, lf] ++ t) = .ok (result, t)) ↔
        ¬ BareDot m)) ∧
    (Unterminated s →
      (¬ DotLine s → ∀ body rest, readData none s ≠ .ok (some body, rest)) ∧
      (paddedLength s ≤ maxMessageSize →
        (∀ body rest, readData none s ≠ .ok (some body, rest)) → ¬ DotLine s)) :=
  ⟨fun hm => ends_at_terminator_iff failure hm t,
    fun _ => ⟨truncated_refused, not_dotLine_of_refused⟩⟩

def smuggling : Bytes := [97, lf, dot, cr, lf, 81, 85, 73, 84, cr, lf]

theorem smuggled_command_and_cut_message :
    [cr, lf] <:+ smuggling ∧ smuggling.length ≤ maxMessageSize ∧
      readData none (dotstuff smuggling ++ [dot, cr, lf]) =
        .ok (some [97, cr, lf], [81, 85, 73, 84, cr, lf, dot, cr, lf]) ∧
      Unterminated [97, cr, lf, dot] ∧
      readData none [97, cr, lf, dot] = .ok (some [97, cr, lf], []) := by
  decide +kernel

/-- ".x" and a CR LF come through, and the same cut short is refused. -/
theorem dotted_line_framed :
    (∃ result, readData none (dotstuff [dot, 120, cr, lf] ++ [dot, cr, lf] ++ [81]) =
      .ok (result, [81])) ∧
    ∀ body rest, readData none [dot, dot, 120, cr, lf] ≠ .ok (some body, rest) := by
  constructor
  · refine ((data_framing_iff none [dot, 120, cr, lf] [81] []).1 (by decide)).2 ?_
    rw [← hasDot_dotstuff]
    simp [dotstuff, dotstuffFrom, HasDot, DotHere, lf, cr, dot]
  · refine ((data_framing_iff none [] [] [dot, dot, 120, cr, lf]).2 (by decide)).1 ?_
    rw [← hasDot_iff_dotLine]
    simp [HasDot, DotHere, LoneDot, lf, cr, dot]

end IrixMail.Smtp
