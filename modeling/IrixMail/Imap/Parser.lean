import IrixMail.Core.Text

/-!
# The IMAP tokenizer

A command line is a tag, a name and arguments. A literal is announced at the end of a
line, `{n}` or `{n+}`, and its octets follow the line. A tab is no space to the
tokenizer and no part of an atom either: it reads an empty atom there again and again.
-/

namespace IrixMail.Imap.Parsing
open List

def tab : UInt8 := 9
def lf : UInt8 := 10
def cr : UInt8 := 13
def space : UInt8 := 32
def quote : UInt8 := 34
def lparen : UInt8 := 40
def rparen : UInt8 := 41
def plus : UInt8 := 43
def backslash : UInt8 := 92
def lbrace : UInt8 := 123
def rbrace : UInt8 := 125

/-- How octets are read as text: lossily, or not at all when they are no UTF-8. -/
structure Decoding where
  lossy : Bytes → String
  strict : Bytes → Option String

inductive Token
  | atom (value : String)
  | quoted (value : String)
  | list (items : List Token)
  | literal (length : ℕ) (sync : Bool)
  | literalValue (octets : Bytes)
  | nil

def Token.asStr (d : Decoding) : Token → Option String
  | .atom value | .quoted value => some value
  | .literalValue octets => d.strict octets
  | _ => none

def Token.asList : Token → Option (List Token)
  | .list items => some items
  | _ => none

structure ParsedCommand where
  tag : String
  name : String
  args : List Token

inductive ParseError
  | empty
  | missingTag
  | missingCommand
  | unterminatedQuoted
  | unterminatedList
  | unbalancedParen
  | badLiteral
  deriving DecidableEq

def ParseError.message : ParseError → String
  | empty => "empty command line"
  | missingTag => "missing command tag"
  | missingCommand => "missing command name"
  | unterminatedQuoted => "unterminated quoted string"
  | unterminatedList => "unterminated parenthesized list"
  | unbalancedParen => "unbalanced parenthesis"
  | badLiteral => "malformed literal length"

/-- How a text fails to tokenize: with an error, or by never coming to an end. -/
inductive Failure
  | error (e : ParseError)
  | endless
  deriving DecidableEq

abbrev Scan (α : Type) := Except Failure α

def bad {α : Type} (e : ParseError) : Scan α := .error (.error e)

def stripCrlf (line : Bytes) : Bytes :=
  let line := if line.getLast? = some lf then line.dropLast else line
  if line.getLast? = some cr then line.dropLast else line

def isSpace (b : UInt8) : Bool := b = space
def isDigit (b : UInt8) : Bool := 48 ≤ b ∧ b ≤ 57

def isAtomByte (b : UInt8) : Bool :=
  b ≠ space ∧ b ≠ tab ∧ b ≠ lparen ∧ b ≠ rparen ∧ b ≠ quote ∧ b ≠ lbrace

def decimal (digits : Bytes) : ℕ := digits.foldl (fun n b => 10 * n + (b.toNat - 48)) 0

def skipSpaces (input : Bytes) : Bytes := input.dropWhile isSpace

def isNil (raw : Bytes) : Bool :=
  raw.map (fun b => if 97 ≤ b ∧ b ≤ 122 then b - 32 else b) = [78, 73, 76]

variable (d : Decoding)

def quotedFrom (buf : Bytes) : Bytes → Scan (Token × Bytes)
  | [] => bad .unterminatedQuoted
  | b :: rest =>
    if b = quote then .ok (.quoted (d.lossy buf), rest)
    else if b = backslash then
      match rest with
      | [] => bad .unterminatedQuoted
      | escaped :: rest => quotedFrom (buf ++ [escaped]) rest
    else quotedFrom (buf ++ [b]) rest

/-- A literal, after its brace. It ends the input, and its length is a `u32`. -/
def literal (input : Bytes) : Scan (Token × Bytes) :=
  let digits := input.takeWhile isDigit
  let rest := input.dropWhile isDigit
  if digits = [] ∨ 2 ^ 32 ≤ decimal digits then bad .badLiteral
  else if rest = [plus, rbrace] then .ok (.literal (decimal digits) false, [])
  else if rest = [rbrace] then .ok (.literal (decimal digits) true, [])
  else bad .badLiteral

def atom (input : Bytes) : Token × Bytes :=
  let raw := input.takeWhile isAtomByte
  (if isNil raw then .nil else .atom (d.lossy raw), input.dropWhile isAtomByte)

mutual

def token : ℕ → Bytes → Scan (Token × Bytes)
  | 0, _ => .error .endless
  | _ + 1, [] => .ok (atom d [])
  | n + 1, b :: rest =>
    if b = lparen then
      match listItems n rest with
      | .ok (items, rest) => .ok (.list items, rest)
      | .error e => .error e
    else if b = quote then quotedFrom d [] rest
    else if b = lbrace then literal rest
    else if b = rparen then bad .unbalancedParen
    else .ok (atom d (b :: rest))

def listItems : ℕ → Bytes → Scan (List Token × Bytes)
  | 0, _ => .error .endless
  | n + 1, input =>
    match skipSpaces input with
    | [] => bad .unterminatedList
    | b :: rest =>
      if b = rparen then .ok ([], rest)
      else do
        let (item, rest) ← token n (b :: rest)
        let (items, rest) ← listItems n rest
        pure (item :: items, rest)

end

def tokens : ℕ → Bytes → Scan (List Token)
  | 0, _ => .error .endless
  | n + 1, input =>
    match skipSpaces input with
    | [] => .ok []
    | b :: rest => do
      let (first, rest) ← token d n (b :: rest)
      let others ← tokens n rest
      pure (first :: others)

/-- Every token takes an octet but an empty atom, which is read for ever. A list takes two
rounds for an item, so that an input that comes to an end does so in these rounds. -/
def tokenize (input : Bytes) : Scan (List Token) := tokens d (2 * input.length + 2) input

def tokenizeArgs (input : Bytes) : Scan (List Token) := tokenize d (stripCrlf input)

def parseCommand (line : Bytes) : Scan ParsedCommand :=
  let line := stripCrlf line
  let tag := line.takeWhile (!isSpace ·)
  let afterTag := skipSpaces (line.drop tag.length)
  let name := afterTag.takeWhile (!isSpace ·)
  let argsInput := afterTag.drop (name.length + 1)
  if line = [] then bad .empty
  else if tag.length = line.length then bad .missingCommand
  else if tag = [] then bad .missingTag
  else if afterTag = [] then bad .missingCommand
  else
    match tokenize d argsInput with
    | .ok args => .ok ⟨d.lossy tag, d.lossy name, args⟩
    | .error e => .error e

/-! ## Markers

Where a text ends in `{n+}`, either the tokenizer fails or the literal is its last token. -/

/-- The length in the `{n+}` that a line ends in. -/
def marker (text : Bytes) : Option ℕ :=
  match (stripCrlf text).reverse with
  | close :: sign :: rest =>
    let digits := (rest.takeWhile isDigit).reverse
    if close = rbrace ∧ sign = plus ∧ digits ≠ [] ∧
        (rest.dropWhile isDigit).head? = some lbrace then some (decimal digits)
    else none
  | _ => none

def markerOf (digits : Bytes) : Bytes := lbrace :: (digits ++ [plus, rbrace])

theorem stripCrlf_of_marker {text : Bytes} {n : ℕ} (h : marker text = some n) :
    ∃ front digits, stripCrlf text = front ++ markerOf digits ∧ (∀ b ∈ digits, isDigit b) ∧
      digits ≠ [] ∧ decimal digits = n := by
  unfold marker at h
  split at h
  next close sign rest heq =>
    dsimp only at h
    split_ifs at h with hcond
    obtain ⟨rfl, rfl, hne, hbrace⟩ := hcond
    obtain ⟨tail, htail⟩ : ∃ tail, rest.dropWhile isDigit = lbrace :: tail := by
      cases hdrop : rest.dropWhile isDigit with
      | nil => simp [hdrop] at hbrace
      | cons b tail =>
        rw [hdrop, head?_cons, Option.some.injEq] at hbrace
        exact ⟨tail, by rw [hbrace]⟩
    refine ⟨tail.reverse, (rest.takeWhile isDigit).reverse, ?_, ?_, hne, Option.some.inj h⟩
    · have hrest : rest.takeWhile isDigit ++ lbrace :: tail = rest := by
        rw [← htail, takeWhile_append_dropWhile]
      generalize rest.takeWhile isDigit = ds at hrest
      rw [← reverse_reverse (stripCrlf text), heq, ← hrest]
      simp [markerOf]
    · intro b hb
      exact all_eq_true.mp all_takeWhile b (mem_reverse.mp hb)
  next => cases h

section
variable {digits : Bytes} (hdigits : ∀ b ∈ digits, isDigit b)
include hdigits

theorem not_mem_markerOf {c : UInt8} (h : isDigit c = false) (hl : c ≠ lbrace) (hp : c ≠ plus)
    (hr : c ≠ rbrace) : c ∉ markerOf digits := by
  intro hc
  simp only [markerOf, mem_cons, mem_append, not_mem_nil, or_false] at hc
  rcases hc with hc | hc | hc | hc
  · exact hl hc
  · rw [hdigits c hc] at h
    cases h
  · exact hp hc
  · exact hr hc

end

theorem suffix_of_getLast {f u r m : Bytes} {c : UInt8}
    (h : u ++ r = f ++ m) (hlast : u.getLast? = some c) (hc : c ∉ m) : m <:+ r := by
  rcases append_eq_append_iff.mp h with ⟨a, rfl, rfl⟩ | ⟨a, rfl, rfl⟩
  · exact ⟨a, rfl⟩
  · rcases eq_nil_or_concat a with rfl | ⟨a, x, rfl⟩
    · simp
    · simp only [concat_eq_append, getLast?_append,
        getLast?_singleton, Option.some_or, Option.some.injEq] at hlast
      subst hlast
      exact absurd (by simp) hc

theorem suffix_of_not_mem {f u r m : Bytes} {c : UInt8}
    (h : u ++ r = f ++ (c :: m)) (hc : c ∉ u) : c :: m <:+ r := by
  rcases append_eq_append_iff.mp h with ⟨a, rfl, rfl⟩ | ⟨a, rfl, h'⟩
  · exact ⟨a, rfl⟩
  · cases a with
    | nil =>
      exact h' ▸ suffix_rfl
    | cons x a =>
      rw [cons_append, cons.injEq] at h'
      exact absurd (by simp [h'.1]) hc

theorem quotedFrom_used {buf input rest : Bytes} {t : Token}
    (h : quotedFrom d buf input = .ok (t, rest)) :
    ∃ used, used ++ rest = input ∧ used.getLast? = some quote := by
  fun_induction quotedFrom d buf input with
  | case1 => cases h
  | case2 buf tail =>
    obtain ⟨-, rfl⟩ := Prod.mk.inj (Except.ok.inj h)
    exact ⟨[quote], rfl, rfl⟩
  | case3 => cases h
  | case4 buf escaped tail hne ih =>
    obtain ⟨used, rfl, hlast⟩ := ih h
    exact ⟨backslash :: escaped :: used, rfl, by simp [getLast?_cons, hlast]⟩
  | case5 buf b tail hb hs ih =>
    obtain ⟨used, rfl, hlast⟩ := ih h
    exact ⟨b :: used, rfl, by simp [getLast?_cons, hlast]⟩

theorem literal_ok {input rest : Bytes} {t : Token} (h : literal input = .ok (t, rest)) :
    rest = [] ∧ ∃ digits sync, t = .literal (decimal digits) sync ∧ (∀ b ∈ digits, isDigit b) ∧
      input = digits ++ (if sync then [rbrace] else [plus, rbrace]) := by
  unfold literal at h
  have hsplit := takeWhile_append_dropWhile (p := isDigit) (l := input)
  have hall : ∀ b ∈ input.takeWhile isDigit, isDigit b := all_eq_true.mp all_takeWhile
  dsimp only at h
  split_ifs at h with hbad hplus hbrace
  · cases h
  · obtain ⟨rfl, rfl⟩ := Prod.mk.inj (Except.ok.inj h)
    exact ⟨rfl, _, false, rfl, hall, by rw [← hplus, if_neg Bool.false_ne_true, hsplit]⟩
  · obtain ⟨rfl, rfl⟩ := Prod.mk.inj (Except.ok.inj h)
    exact ⟨rfl, _, true, rfl, hall, by rw [← hbrace, if_pos rfl, hsplit]⟩
  · cases h

theorem skipSpaces_suffix (input : Bytes) : skipSpaces input <:+ input :=
  dropWhile_suffix _

mutual

/-- What a token takes: it ends in a closing character, or it is a literal, or it is
made of the octets of an atom. -/
theorem token_used (n : ℕ) (b : UInt8) (input : Bytes) {t : Token} {rest : Bytes}
    (h : token d n (b :: input) = .ok (t, rest)) :
    ∃ used, used ++ rest = b :: input ∧
      (used.getLast? = some rparen ∨ used.getLast? = some quote ∨
        b = lbrace ∧ literal input = .ok (t, rest) ∨
        (∀ x ∈ used, isAtomByte x) ∧ (b ≠ tab → b ≠ space → used ≠ [])) := by
  cases n with
  | zero => cases h
  | succ n =>
    rw [token] at h
    split_ifs at h with hparen hquote hbrace hclose
    · split at h
      next items left hlist =>
        obtain ⟨-, rfl⟩ := Prod.mk.inj (Except.ok.inj h)
        obtain ⟨used, rfl, hlast⟩ := listItems_used n input hlist
        exact ⟨b :: used, rfl, .inl (by simp [getLast?_cons, hlast])⟩
      next => cases h
    · obtain ⟨used, rfl, hlast⟩ := quotedFrom_used d h
      exact ⟨b :: used, rfl, .inr (.inl (by simp [getLast?_cons, hlast]))⟩
    · exact ⟨b :: input, by rw [(literal_ok h).1, append_nil], .inr (.inr (.inl ⟨hbrace, h⟩))⟩
    · cases h
    · obtain ⟨-, rfl⟩ := Prod.mk.inj (Except.ok.inj h)
      refine ⟨_, takeWhile_append_dropWhile, .inr (.inr (.inr
        ⟨all_eq_true.mp all_takeWhile, fun htab hspace => ?_⟩))⟩
      rw [takeWhile_cons_of_pos (by simp [isAtomByte, *])]
      exact cons_ne_nil _ _

theorem listItems_used (n : ℕ) (input : Bytes) {items : List Token} {rest : Bytes}
    (h : listItems d n input = .ok (items, rest)) :
    ∃ used, used ++ rest = input ∧ used.getLast? = some rparen := by
  cases n with
  | zero => cases h
  | succ n =>
    obtain ⟨spaces, hspaces⟩ := skipSpaces_suffix input
    rw [listItems] at h
    cases hskip : skipSpaces input with
    | nil => simp [hskip, bad] at h
    | cons b tail =>
      rw [hskip] at h hspaces
      dsimp only at h
      split_ifs at h with hb
      · obtain ⟨-, rfl⟩ := Prod.mk.inj (Except.ok.inj h)
        exact ⟨spaces ++ [b], by rw [append_assoc]; exact hspaces, by simp [hb]⟩
      · cases htoken : token d n (b :: tail) with
        | error e => simp [htoken, bind, Except.bind] at h
        | ok first =>
          obtain ⟨item, left⟩ := first
          cases hlist : listItems d n left with
          | error e => simp [htoken, hlist, bind, Except.bind] at h
          | ok others =>
            obtain ⟨items', left'⟩ := others
            simp only [htoken, hlist, bind, Except.bind, pure, Except.pure, Except.ok.injEq,
              Prod.mk.injEq] at h
            obtain ⟨-, rfl⟩ := h
            obtain ⟨taken, htaken, -⟩ := token_used n b tail htoken
            obtain ⟨used, hused, hlast⟩ := listItems_used n left hlist
            refine ⟨spaces ++ taken ++ used, ?_, ?_⟩
            · rw [append_assoc, hused, append_assoc, htaken, hspaces]
            · rw [getLast?_append, hlast, Option.some_or]

end

section
variable {digits : Bytes} (hdigits : ∀ b ∈ digits, isDigit b)
include hdigits

theorem not_quote_mem : quote ∉ markerOf digits :=
  not_mem_markerOf hdigits (by decide) (by decide) (by decide) (by decide)

theorem not_rparen_mem : rparen ∉ markerOf digits :=
  not_mem_markerOf hdigits (by decide) (by decide) (by decide) (by decide)

theorem not_space_mem : space ∉ markerOf digits :=
  not_mem_markerOf hdigits (by decide) (by decide) (by decide) (by decide)

theorem not_lbrace_mem : lbrace ∉ digits := by
  intro h
  exact absurd (hdigits _ h) (by decide)

theorem literal_markerOf {input rest : Bytes} {t : Token} (h : literal input = .ok (t, rest))
    (hm : markerOf digits <:+ lbrace :: input) : t = .literal (decimal digits) false := by
  obtain ⟨-, digits', sync, rfl, hdigits', rfl⟩ := literal_ok h
  obtain ⟨front, hfront⟩ := hm
  have hno : lbrace ∉ digits' ++ (if sync then [rbrace] else [plus, rbrace]) := by
    rw [mem_append]
    rintro (hmem | hmem)
    · exact not_lbrace_mem hdigits' hmem
    · revert hmem
      cases sync <;> decide
  cases front with
  | nil =>
    rw [nil_append, markerOf, cons.injEq] at hfront
    have hplus {l m : Bytes} {x : UInt8} (hl : ∀ b ∈ l, isDigit b)
        (hx : isDigit x = false) : (l ++ x :: m).takeWhile isDigit = l := by
      rw [takeWhile_append_of_pos (by simpa using hl),
        takeWhile_cons_of_neg (by simp [hx]), append_nil]
    cases sync with
    | false =>
      have := congrArg (takeWhile isDigit) hfront.2
      rw [hplus hdigits (by decide), if_neg Bool.false_ne_true, hplus hdigits' (by decide)] at this
      rw [this]
    | true =>
      have hlen := congrArg (takeWhile isDigit) hfront.2
      rw [hplus hdigits (by decide), if_pos rfl, hplus hdigits' (by decide)] at hlen
      subst hlen
      simp at hfront
  | cons b front =>
    rw [cons_append, cons.injEq] at hfront
    exact absurd (by rw [← hfront.2]; simp [markerOf]) hno

omit hdigits in
theorem skipSpaces_markerOf {input : Bytes} (h : markerOf digits <:+ input) :
    markerOf digits <:+ skipSpaces input := by
  obtain ⟨front, rfl⟩ := h
  refine suffix_of_not_mem (f := front) (u := (front ++ markerOf digits).takeWhile isSpace)
    takeWhile_append_dropWhile ?_
  intro hmem
  exact absurd (all_eq_true.mp all_takeWhile _ hmem) (by decide)

theorem token_markerOf {n : ℕ} {b : UInt8} {input rest : Bytes} {t : Token}
    (h : token d n (b :: input) = .ok (t, rest)) (hm : markerOf digits <:+ b :: input) :
    markerOf digits <:+ rest ∨ t = .literal (decimal digits) false ∧ rest = [] := by
  obtain ⟨used, hused, hkind⟩ := token_used d n b input h
  obtain ⟨front, hfront⟩ := hm
  rcases hkind with hlast | hlast | ⟨rfl, hliteral⟩ | ⟨hall, -⟩
  · exact .inl (suffix_of_getLast (hused.trans hfront.symm) hlast (not_rparen_mem hdigits))
  · exact .inl (suffix_of_getLast (hused.trans hfront.symm) hlast (not_quote_mem hdigits))
  · exact .inr ⟨literal_markerOf hdigits hliteral ⟨front, hfront⟩, (literal_ok hliteral).1⟩
  · refine .inl (suffix_of_not_mem (hused.trans hfront.symm) fun hmem => ?_)
    exact absurd (hall _ hmem) (by decide)

theorem getLast?_tokens {n : ℕ} {input : Bytes} {ts : List Token}
    (h : tokens d n input = .ok ts) (hm : markerOf digits <:+ input) :
    ts.getLast? = some (.literal (decimal digits) false) := by
  induction n generalizing input ts with
  | zero => cases h
  | succ n ih =>
    have hskip := skipSpaces_markerOf hm
    rw [tokens] at h
    cases hrest : skipSpaces input with
    | nil =>
      rw [hrest, suffix_nil] at hskip
      cases hskip
    | cons b tail =>
      rw [hrest] at h hskip
      cases htoken : token d n (b :: tail) with
      | error e => simp [htoken, bind, Except.bind] at h
      | ok first =>
        obtain ⟨t, left⟩ := first
        cases hothers : tokens d n left with
        | error e => simp [htoken, hothers, bind, Except.bind] at h
        | ok others =>
          simp only [htoken, hothers, bind, Except.bind, pure, Except.pure, Except.ok.injEq] at h
          subst h
          rcases token_markerOf d hdigits htoken hskip with hleft | ⟨rfl, rfl⟩
          · rw [getLast?_cons, ih hothers hleft, Option.getD_some]
          · cases n with
            | zero => cases hothers
            | succ n =>
              obtain rfl : [] = others := Except.ok.inj hothers
              rfl

end

theorem getLast?_tokenizeArgs {text : Bytes} {n : ℕ} {ts : List Token}
    (h : tokenizeArgs d text = .ok ts) (hm : marker text = some n) :
    ts.getLast? = some (.literal n false) := by
  obtain ⟨front, digits, hstrip, hdigits, -, rfl⟩ := stripCrlf_of_marker hm
  exact getLast?_tokens d hdigits h ⟨front, hstrip.symm⟩

theorem getLast?_args {text : Bytes} {n : ℕ} {command : ParsedCommand}
    (h : parseCommand d text = .ok command) (hargs : command.args ≠ [])
    (hm : marker text = some n) : command.args.getLast? = some (.literal n false) := by
  obtain ⟨front, digits, hstrip, hdigits, -, rfl⟩ := stripCrlf_of_marker hm
  unfold parseCommand at h
  dsimp only at h
  rw [hstrip] at h
  generalize hline : front ++ markerOf digits = line at h
  generalize htag : line.takeWhile (!isSpace ·) = tag at h
  generalize hafter : skipSpaces (line.drop tag.length) = afterTag at h
  generalize hname : afterTag.takeWhile (!isSpace ·) = name at h
  split_ifs at h
  all_goals first | cases h | skip
  split at h
  next args htokens =>
    obtain rfl := Except.ok.inj h
    refine getLast?_tokens d hdigits htokens ?_
    -- the arguments follow a space, which the marker does not have
    obtain ⟨before, hbefore⟩ : afterTag <:+ line := by
      rw [← hafter]
      exact (skipSpaces_suffix _).trans (drop_suffix _ _)
    have hsplit : name ++ afterTag.dropWhile (!isSpace ·) = afterTag := by
      rw [← hname, takeWhile_append_dropWhile]
    cases hdrop : afterTag.dropWhile (!isSpace ·) with
    | nil =>
      rw [hdrop, append_nil] at hsplit
      rw [hsplit, drop_eq_nil_of_le (Nat.le_succ _)] at htokens
      exact absurd (Except.ok.inj htokens).symm hargs
    | cons b argsInput =>
      have hb : b = space := by
        have hhead := head?_dropWhile_not (!isSpace ·) afterTag
        rw [hdrop] at hhead
        simpa [isSpace] using hhead
      rw [hdrop] at hsplit
      refine suffix_of_getLast (f := front) (u := before ++ (name ++ [b])) ?_ ?_
        (not_space_mem hdigits)
      · rw [hline, ← hbefore, ← hsplit]
        simp
      · simp [hb]
  next => cases h

end IrixMail.Imap.Parsing
