import Mathlib.Data.List.Dedup
import Mathlib.Data.List.Sort

/-!
# Sequence sets

A sequence set is a list of ranges, each of which may end in `*`, the largest
number in use. `compressSequence` is the text of the set of a list of numbers.
-/

namespace IrixMail.Imap
open List

inductive SeqPoint
  | num (value : ℕ)
  | star
  deriving DecidableEq

structure SeqRange where
  first : SeqPoint
  last : SeqPoint
  deriving DecidableEq

def resolve (point : SeqPoint) (largest : ℕ) : ℕ :=
  match point with
  | .num value => value
  | .star => largest

namespace SeqRange

def contains (range : SeqRange) (value largest : ℕ) : Bool :=
  let lo := resolve range.first largest
  let hi := resolve range.last largest
  if lo ≤ hi then lo ≤ value && value ≤ hi else hi ≤ value && value ≤ lo

end SeqRange

def sequenceContains (ranges : List SeqRange) (value largest : ℕ) : Bool :=
  ranges.any fun range => range.contains value largest

def runsOf : Option (ℕ × ℕ) → List ℕ → List (ℕ × ℕ)
  | none, [] => []
  | some run, [] => [run]
  | none, value :: rest => runsOf (some (value, value)) rest
  | some (start, finish), value :: rest =>
    if value = finish + 1 then runsOf (some (start, value)) rest
    else (start, finish) :: runsOf (some (value, value)) rest

def renderRun (start finish : ℕ) : String :=
  if start = finish then toString start else toString start ++ ":" ++ toString finish

def compressSequence (values : List ℕ) : String :=
  ",".intercalate ((runsOf none (values.insertionSort (· ≤ ·)).dedup).map fun run =>
    renderRun run.1 run.2)

end IrixMail.Imap
