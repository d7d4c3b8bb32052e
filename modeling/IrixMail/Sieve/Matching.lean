import IrixMail.Core.Text

/-!
# Comparing a value with a key

The glob matcher is a loop with one backtrack point, the latest star. That one
is enough: what an earlier star could still try leaves a shorter rest, and the
latest star reaches every rest of the text.
-/

namespace IrixMail.Sieve
open List

inductive MatchType
  | is
  | contains
  | «matches»

inductive Comparator
  | asciiCaseMap
  | octet

def Comparator.fold : Comparator → String → String
  | asciiCaseMap, s => toAsciiLowercase s
  | octet, s => s

inductive Pat
  | many
  | single
  | char (ch : Char)
  deriving DecidableEq

def compileGlobFrom (compiled : List Pat) : List Char → List Pat
  | [] => compiled
  | '*' :: rest =>
    compileGlobFrom (if compiled.getLast? = some .many then compiled else compiled ++ [.many]) rest
  | '?' :: rest => compileGlobFrom (compiled ++ [.single]) rest
  | ['\\'] => compiled ++ [.char '\\']
  | '\\' :: ch :: rest => compileGlobFrom (compiled ++ [.char ch]) rest
  | ch :: rest => compileGlobFrom (compiled ++ [.char ch]) rest

def compileGlob (pattern : String) : List Pat := compileGlobFrom [] pattern.toList

/-- The rest after a pattern item that takes the next character. -/
def consume : List Pat → List Char → Option (List Pat × List Char)
  | .char ch :: p, c :: v => if c = ch then some (p, v) else none
  | .single :: p, _ :: v => some (p, v)
  | _, _ => none

/-- Where the loop restarts when the star before `p`, met at `v`, has to take one more character:
`next_px` is the star itself, whose own iteration is taken together with the restart. -/
def restart (p : List Pat) : List Char → Option (List Pat × List Char)
  | [] => none
  | _ :: v => some (p, v)

/-- What is left to try, for the termination of the loop. -/
def room (next : Option (List Pat × List Char)) (v : List Char) : ℕ :=
  max v.length (next.elim 0 fun n => n.2.length + 1)

variable {v v' w : List Char} {p p' q compiled : List Pat} {S : List Char → Prop}

theorem cons_of_consume (h : consume p v = some (p', v')) :
    ∃ a c, p = a :: p' ∧ v = c :: v' ∧ a ≠ .many ∧ (a = .single ∨ a = .char c) := by
  fun_cases consume p v <;> grind [consume]

theorem room_restart (p : List Pat) (v : List Char) : room (restart p v) v = v.length := by
  cases v <;> simp [room, restart]

def globLoop (next : Option (List Pat × List Char)) (pattern : List Pat) (value : List Char) : Bool :=
  match pattern, value with
  | [], [] => true
  | .many :: p, v => globLoop (restart p v) p v
  | pattern, value =>
    match _h : consume pattern value with
    | some (p, v) => globLoop next p v
    | none =>
      match next with
      | some (p, v) => globLoop (restart p v) p v
      | none => false
  termination_by (room next value, pattern.length)
  decreasing_by
    · have hle : v.length ≤ room next v := le_max_left ..
      rw [Prod.lex_def, room_restart]
      simp only [List.length_cons]
      omega
    · obtain ⟨a, c, rfl, rfl, -⟩ := cons_of_consume _h
      simp only [Prod.lex_def, room, List.length_cons]
      omega
    · rw [Prod.lex_def, room_restart]
      simp only [room, Option.elim_some]
      omega

/-- The text `v` divides into what the items of the compiled pattern stand for. -/
def Fits : List Pat → List Char → Prop
  | [], v => v = []
  | .many :: p, v => ∃ t, t <:+ v ∧ Fits p t
  | .single :: p, v => ∃ c t, v = c :: t ∧ Fits p t
  | .char ch :: p, v => ∃ t, v = ch :: t ∧ Fits p t

theorem fits_many_cons :
    Fits (.many :: p) v ↔ Fits p v ∨ ∃ c t, v = c :: t ∧ Fits (.many :: p) t := by
  constructor
  · rintro ⟨t, ht, h⟩
    cases v with
    | nil => exact .inl (suffix_nil.1 ht ▸ h)
    | cons c v =>
      obtain rfl | ht := suffix_cons_iff.1 ht
      · exact .inl h
      · exact .inr ⟨c, v, rfl, t, ht, h⟩
  · rintro (h | ⟨c, t, rfl, s, hs, h⟩)
    · exact ⟨v, suffix_rfl, h⟩
    · exact ⟨s, hs.trans (suffix_cons c t), h⟩

theorem fits_many_restart (p : List Pat) (v : List Char) :
    Fits (.many :: p) v ↔ Fits p v ∨ ∃ q w, restart p v = some (q, w) ∧ Fits (.many :: q) w := by
  rw [fits_many_cons]
  cases v <;> grind [restart]

theorem fits_append :
    Fits (p ++ q) v ↔ ∃ s t, v = s ++ t ∧ Fits p s ∧ Fits q t := by
  induction p generalizing v with
  | nil => exact ⟨fun h => ⟨[], v, rfl, rfl, h⟩, by rintro ⟨-, t, rfl, rfl, h⟩; exact h⟩
  | cons a p ih =>
    cases a with
    | single | char ch => simp only [cons_append, Fits]; grind
    | many =>
      simp only [cons_append, Fits, ih]
      constructor
      · rintro ⟨-, ⟨x, rfl⟩, s, t, rfl, hs, ht⟩
        exact ⟨x ++ s, t, (append_assoc ..).symm, ⟨s, suffix_append x s, hs⟩, ht⟩
      · rintro ⟨-, t, rfl, ⟨s, ⟨x, rfl⟩, hs⟩, ht⟩
        exact ⟨s ++ t, ⟨x, (append_assoc ..).symm⟩, s, t, rfl, hs, ht⟩

theorem length_of_fits (hp : .many ∉ p) (h : Fits p v) :
    v.length = p.length := by
  induction p generalizing v with
  | nil => exact congrArg length h
  | cons a p ih =>
    have hrest := fun h => hp (mem_cons_of_mem a h)
    cases a with
    | many => exact absurd mem_cons_self hp
    | single =>
      obtain ⟨c, t, rfl, h⟩ := h
      exact congrArg (· + 1) (ih hrest h)
    | char ch =>
      obtain ⟨t, rfl, h⟩ := h
      exact congrArg (· + 1) (ih hrest h)

theorem fits_of_consume (h : consume p v = some (p', v')) :
    Fits p v ↔ Fits p' v' := by
  obtain ⟨a, c, rfl, rfl, -, rfl | rfl⟩ := cons_of_consume h <;> simp [Fits, and_assoc]

theorem not_fits_of_consume (hne : ¬ (p = [] ∧ v = []))
    (hp : ∀ q, p ≠ .many :: q) (h : consume p v = none) : ¬ Fits p v := by
  intro hfits
  match p, hfits with
  | [], hv => exact hne ⟨rfl, hv⟩
  | .many :: q, _ => exact hp q rfl
  | .single :: q, ⟨c, t, hv, _⟩ => simp [hv, consume] at h
  | .char ch :: q, ⟨t, hv, _⟩ => simp [hv, consume] at h

/-- Since the latest star, the items `seg` of its rest `q` have each taken one character: `mid`
begins with the character that the star itself would take next. -/
def Since (q : List Pat) (w : List Char) (p : List Pat) (v : List Char) : Prop :=
  ∃ seg mid c, .many ∉ seg ∧ q = seg ++ p ∧ c :: w = mid ++ v ∧ seg.length = mid.length

/-- A later star reaches whatever the star before it could. -/
theorem Since.fits (h : Since q w (.many :: p) v)
    (hfits : Fits (.many :: q) w) : Fits (.many :: p) v := by
  obtain ⟨seg, mid, c, hseg, rfl, hw, hlen⟩ := h
  obtain ⟨t, ht, hfits⟩ := hfits
  obtain ⟨x, y, rfl, hx, s, hs, hp⟩ := fits_append.1 hfits
  have hy : y <:+ c :: w := ((suffix_append x y).trans ht).trans (suffix_cons c w)
  have hv : v <:+ c :: w := ⟨mid, hw.symm⟩
  have hshort : y.length ≤ v.length := by
    have hxy := ht.length_le
    have hcw := congrArg length hw
    rw [length_append] at hxy hcw
    rw [length_cons] at hcw
    have := length_of_fits hseg hx
    omega
  exact ⟨s, hs.trans (suffix_of_suffix_length_le hy hv hshort), hp⟩

theorem since_restart (h : restart p v = some (q, w)) :
    Since q w p v := by
  cases v with
  | nil => cases h
  | cons c v =>
    cases h
    exact ⟨[], [], c, not_mem_nil, rfl, rfl, rfl⟩

theorem Since.consume (h : Since q w p v)
    (hc : Sieve.consume p v = some (p', v')) : Since q w p' v' := by
  obtain ⟨a, c, rfl, rfl, hne, -⟩ := cons_of_consume hc
  obtain ⟨seg, mid, c', hseg, rfl, hw, hlen⟩ := h
  refine ⟨seg ++ [a], mid ++ [c], c', ?_, ?_, ?_, ?_⟩ <;> grind

theorem globLoop_iff (next : Option (List Pat × List Char)) (p : List Pat) (v : List Char)
    (hnext : ∀ q w, next = some (q, w) → Since q w p v) :
    globLoop next p v = true ↔ Fits p v ∨ ∃ q w, next = some (q, w) ∧ Fits (.many :: q) w := by
  fun_induction globLoop next p v with
  | case1 next => simp [Fits]
  | case2 next p v ih =>
    -- the star before, if there is one, has nothing to add to this one
    rw [ih fun _ _ => since_restart, ← fits_many_restart]
    constructor
    · exact .inl
    · rintro (h | ⟨q, w, hq, h⟩)
      · exact h
      · exact (hnext q w hq).fits h
  | case3 next p v hne hp p' v' hc ih =>
    rw [ih fun q w hq => (hnext q w hq).consume hc, fits_of_consume hc]
  | case4 p v hne hp hc q w ih =>
    have hnot := not_fits_of_consume (fun h => hne h.1 h.2) hp hc
    rw [ih fun _ _ => since_restart, ← fits_many_restart]
    grind
  | case5 p v hne hp hc =>
    have hnot := not_fits_of_consume (fun h => hne h.1 h.2) hp hc
    simp [hnot]

def globMatches (pattern value : String) : Bool := globLoop none (compileGlob pattern) value.toList

def valueMatches (matchType : MatchType) (comparator : Comparator) (key value : String) : Bool :=
  match matchType with
  | .is =>
    match comparator with
    | .octet => value == key
    | .asciiCaseMap => eqIgnoreAsciiCase value key
  | .contains =>
    key.isEmpty || decide ((comparator.fold key).toList <:+: (comparator.fold value).toList)
  | .matches => globMatches (comparator.fold key) (comparator.fold value)

/-- What a pattern stands for: a star for any run of characters, a question mark for one
character, a backslash for the character after it, and every other character for itself. -/
def Splits : List Char → List Char → Prop
  | [], v => v = []
  | '*' :: p, v => ∃ run t, v = run ++ t ∧ Splits p t
  | '?' :: p, v => ∃ c t, v = c :: t ∧ Splits p t
  | ['\\'], v => v = ['\\']
  | '\\' :: ch :: p, v => ∃ t, v = ch :: t ∧ Splits p t
  | ch :: p, v => ∃ t, v = ch :: t ∧ Splits p t

theorem fits_absorb {s : List Char} (hp : p.getLast? = some .many)
    (h : Fits p s) (run : List Char) : Fits p (s ++ run) := by
  obtain ⟨q, rfl⟩ := getLast?_eq_some_iff.1 hp
  obtain ⟨x, y, rfl, hx, -, -, rfl⟩ := fits_append.1 h
  exact fits_append.2 ⟨x, y ++ run, append_assoc .., hx, [], nil_suffix, rfl⟩

theorem fits_push {x : Pat} {S' : List Char → Prop}
    (hS : ∀ t, S' t ↔ ∃ y t', t = y ++ t' ∧ Fits [x] y ∧ S t') :
    (∃ s t, v = s ++ t ∧ Fits (compiled ++ [x]) s ∧ S t) ↔
      ∃ s t, v = s ++ t ∧ Fits compiled s ∧ S' t := by
  constructor
  · rintro ⟨s', t, rfl, h, ht⟩
    obtain ⟨s, y, rfl, hs, hy⟩ := fits_append.1 h
    exact ⟨s, y ++ t, append_assoc .., hs, (hS _).2 ⟨y, t, rfl, hy, ht⟩⟩
  · rintro ⟨s, t', rfl, hs, h⟩
    obtain ⟨y, t, rfl, hy, ht⟩ := (hS t').1 h
    exact ⟨s ++ y, t, (append_assoc ..).symm, fits_append.2 ⟨s, y, rfl, hs, hy⟩, ht⟩

theorem fits_push_char {ch : Char} :
    (∃ s t, v = s ++ t ∧ Fits (compiled ++ [.char ch]) s ∧ S t) ↔
      ∃ s t, v = s ++ t ∧ Fits compiled s ∧ ∃ t', t = ch :: t' ∧ S t' := by
  refine fits_push fun t => ⟨?_, ?_⟩
  · rintro ⟨t', rfl, h⟩
    exact ⟨[ch], t', rfl, ⟨[], rfl, rfl⟩, h⟩
  · rintro ⟨-, t', rfl, ⟨-, rfl, rfl⟩, h⟩
    exact ⟨t', rfl, h⟩

theorem fits_compileGlobFrom (compiled : List Pat) (p v : List Char) :
    Fits (compileGlobFrom compiled p) v ↔ ∃ s t, v = s ++ t ∧ Fits compiled s ∧ Splits p t := by
  fun_induction compileGlobFrom compiled p with
  | case1 compiled => simp [Splits]
  | case2 compiled p ih =>
    rw [ih]
    split
    next hlast =>
      -- a star after a star adds nothing
      constructor
      · rintro ⟨s, t, rfl, hs, ht⟩
        exact ⟨s, t, rfl, hs, [], t, rfl, ht⟩
      · rintro ⟨s, -, rfl, hs, run, t, rfl, ht⟩
        exact ⟨s ++ run, t, (append_assoc ..).symm, fits_absorb hlast hs run, ht⟩
    next =>
      refine fits_push fun t => ?_
      have hany : ∀ y, Fits [.many] y := fun y => ⟨[], nil_suffix, rfl⟩
      simp only [Splits, hany, true_and]
  | case3 compiled p ih =>
    rw [ih]
    refine fits_push fun t => ⟨?_, ?_⟩
    · rintro ⟨c, t', rfl, h⟩
      exact ⟨[c], t', rfl, ⟨c, [], rfl, rfl⟩, h⟩
    · rintro ⟨-, t', rfl, ⟨c, -, rfl, rfl⟩, h⟩
      exact ⟨c, t', rfl, h⟩
  | case4 compiled => simp only [fits_append, Splits, Fits, exists_eq_right]
  | case5 compiled ch p ih =>
    rw [ih, fits_push_char]
    simp only [Splits]
  | case6 compiled ch p h1 h2 h3 h4 ih =>
    rw [ih, fits_push_char]
    simp only [Splits]

theorem valueMatches_iff_splits (comparator : Comparator) (pattern value : String) :
    valueMatches .matches comparator pattern value = true ↔
      Splits (comparator.fold pattern).toList (comparator.fold value).toList := by
  have hloop := globLoop_iff none (compileGlob (comparator.fold pattern))
    (comparator.fold value).toList (by simp)
  refine hloop.trans ?_
  simp only [compileGlob, fits_compileGlobFrom]
  constructor
  · rintro (⟨-, t, hv, rfl, h⟩ | ⟨q, w, hq, -⟩)
    · exact hv ▸ h
    · cases hq
  · exact fun h => .inl ⟨[], _, rfl, rfl, h⟩

end IrixMail.Sieve
