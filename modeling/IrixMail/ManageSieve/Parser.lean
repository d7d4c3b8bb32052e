import IrixMail.Core.Text

/-!
# Tokens of a ManageSieve line

A line is cut into atoms, quoted strings and at most one literal, which ends it. How
octets that are not UTF-8 are read is left to the library of the source.
-/

namespace IrixMail.ManageSieve

def lf : UInt8 := 10
def cr : UInt8 := 13
def quote : UInt8 := 34
def star : UInt8 := 42
def plus : UInt8 := 43
def backslash : UInt8 := 92
def lbrace : UInt8 := 123
def rbrace : UInt8 := 125

def isBlank (b : UInt8) : Bool := b = 32 ∨ b = 9
def isDigit (b : UInt8) : Bool := 48 ≤ b ∧ b ≤ 57

inductive Token
  | atom (value : String)
  | str (value : String)
  | literal (length : ℕ)
  deriving DecidableEq

def Token.asStr : Token → Option String
  | .atom value | .str value => some value
  | .literal _ => none

inductive ParseError
  | unterminatedQuoted
  | badLiteral
  | literalNotLast
  deriving DecidableEq

def ParseError.message : ParseError → String
  | unterminatedQuoted => "unterminated quoted string"
  | badLiteral => "malformed literal"
  | literalNotLast => "a literal must end the line"

def stripCr (line : Bytes) : Bytes := if line.getLast? = some cr then line.dropLast else line

def quotedFrom (value : Bytes) : Bytes → Except ParseError (Bytes × Bytes)
  | [] => .error .unterminatedQuoted
  | b :: rest =>
    if b = quote then .ok (value, rest)
    else if b = backslash then
      match rest with
      | [] => .error .unterminatedQuoted
      | escaped :: rest => quotedFrom (value ++ [escaped]) rest
    else quotedFrom (value ++ [b]) rest

def parseUsize (digits : Bytes) : Option ℕ :=
  let length := digits.foldl (fun n b => 10 * n + (b.toNat - 48)) 0
  if length < 2 ^ 64 then some length else none

def literalFrom (rest : Bytes) : Except ParseError ℕ :=
  match rest.dropWhile (· ≠ rbrace) with
  | [] => .error .badLiteral
  | _ :: after =>
    let marked := rest.takeWhile (· ≠ rbrace)
    let digits := if marked.getLast? = some plus then marked.dropLast else marked
    if digits = [] ∨ !digits.all isDigit then .error .badLiteral
    else
      match parseUsize digits with
      | none => .error .badLiteral
      | some length => if after.all isBlank then .ok length else .error .literalNotLast

variable (lossy : Bytes → String)

/-- The tokens of `line`, of which every round takes an octet. -/
def tokensFrom : ℕ → Bytes → Except ParseError (List Token)
  | 0, _ => .ok []
  | _ + 1, [] => .ok []
  | n + 1, b :: rest =>
    if isBlank b then tokensFrom n rest
    else if b = quote then do
      let (value, rest) ← quotedFrom [] rest
      let tokens ← tokensFrom n rest
      pure (.str (lossy value) :: tokens)
    else if b = lbrace then do
      let length ← literalFrom rest
      pure [.literal length]
    else do
      let tokens ← tokensFrom n (rest.dropWhile (!isBlank ·))
      pure (.atom (lossy (b :: rest.takeWhile (!isBlank ·))) :: tokens)

def tokenizeLine (line : Bytes) : Except ParseError (List Token) :=
  tokensFrom lossy line.length line

def marker (line : Bytes) : Option ℕ :=
  match tokenizeLine lossy line with
  | .error _ => none
  | .ok tokens =>
    match tokens.getLast? with
    | some (.literal length) => some length
    | _ => none

end IrixMail.ManageSieve
