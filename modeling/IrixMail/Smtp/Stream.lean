import IrixMail.Core.Text

/-!
# Reading from the peer

The octets that the peer is going to send are known in advance; every reader
takes some of them and leaves the rest. At their end a read reports the end of
the stream, or fails when the connection breaks there.
-/

namespace IrixMail.Smtp

def lf : UInt8 := 10
def cr : UInt8 := 13
def dot : UInt8 := 46

def maxLineLength : ℕ := 1024
def maxMessageSize : ℕ := 25 * 1024 * 1024

def stripCrlf (line : Bytes) : Bytes :=
  if line.getLast? = some cr then line.dropLast else line

def terminated (line : Bytes) : Bytes := stripCrlf line ++ [cr, lf]

structure Wire where
  incoming : Bytes
  /-- How reads past the last octet fail, if they do. -/
  failure : Option Error := none
  /-- How many replies the peer takes before it stops listening. -/
  takes : ℕ := 0
  /-- The replies, newest first. -/
  sent : List String := []
  deriving DecidableEq

def lineAtEnd (failure : Option Error) (buf : Bytes) : Except Error (Option Bytes × Bytes) :=
  match failure with
  | some e => .error e
  | none => .ok (if buf.isEmpty then none else some buf, [])

def lineTooLong : Error := .protocol "command line exceeds the maximum length"

/-- A command line, without its LF; `none` at the end of the stream. -/
def readLine (failure : Option Error) (buf : Bytes) :
    Bytes → Except Error (Option Bytes × Bytes)
  | [] => lineAtEnd failure buf
  | b :: rest =>
    if b = lf then .ok (some buf, rest)
    else if maxLineLength ≤ buf.length then .error lineTooLong
    else readLine failure (buf ++ [b]) rest

def readDataLine (failure : Option Error) (buf : Bytes) :
    Bytes → Except Error (Option Bytes × Bytes)
  | [] => lineAtEnd failure buf
  | b :: rest =>
    if b = lf then .ok (some buf, rest)
    else readDataLine failure (if buf.length ≤ maxMessageSize then buf ++ [b] else buf) rest

/-! ## DATA -/

inductive BodyStep
  | continue
  | complete
  | tooLarge
  deriving DecidableEq

structure BodyReceiver where
  body : Bytes
  maxSize : ℕ
  deriving DecidableEq

def BodyReceiver.new (maxSize : ℕ) : BodyReceiver := ⟨[], maxSize⟩

def unstuff (line : Bytes) : Bytes := if line.head? = some dot then line.tail else line

def BodyReceiver.pushLine (receiver : BodyReceiver) (line : Bytes) : BodyStep × BodyReceiver :=
  if line = [dot] then (.complete, receiver)
  else if 0 < receiver.maxSize ∧
      receiver.maxSize < receiver.body.length + (unstuff line).length + 2 then
    (.tooLarge, receiver)
  else (.continue, { receiver with body := receiver.body ++ unstuff line ++ [cr, lf] })

def closedDuringData : Error := .protocol "connection closed during DATA"

/-- The loop of `readData`. Every line takes an octet, so that more rounds than
there are octets are never made. -/
def readDataLines (failure : Option Error) : ℕ → BodyReceiver → Bool → Bytes →
    Except Error (Option Bytes × Bytes)
  | 0, _, _, _ => .error closedDuringData
  | n + 1, receiver, overflowed, incoming =>
    match readDataLine failure [] incoming with
    | .error e => .error e
    | .ok (none, _) => .error closedDuringData
    | .ok (some line, rest) =>
      let body := stripCrlf line
      if overflowed then
        if body = [dot] then .ok (none, rest)
        else readDataLines failure n receiver true rest
      else
        match receiver.pushLine body with
        | (.continue, receiver) => readDataLines failure n receiver false rest
        | (.complete, receiver) => .ok (some receiver.body, rest)
        | (.tooLarge, receiver) => readDataLines failure n receiver true rest

/-- The message after `DATA`; `none` when it is too large. -/
def readData (failure : Option Error) (incoming : Bytes) : Except Error (Option Bytes × Bytes) :=
  readDataLines failure (incoming.length + 1) (.new maxMessageSize) false incoming

/-! ## BDAT -/

def closedDuringChunk : Error := .protocol "connection closed during BDAT chunk"

def readChunk (count : ℕ) (incoming : Bytes) : Except Error (Bytes × Bytes) :=
  if count ≤ incoming.length then .ok (incoming.take count, incoming.drop count)
  else .error closedDuringChunk

def drainBuffer : ℕ := 4096

def drainChunk (remaining : ℕ) (incoming : Bytes) : Except Error Bytes :=
  if remaining = 0 then .ok incoming
  else
    match readChunk (min remaining drainBuffer) incoming with
    | .error e => .error e
    | .ok (_, rest) => drainChunk (remaining - min remaining drainBuffer) rest
termination_by remaining
decreasing_by simp only [drainBuffer]; omega

theorem drainChunk_eq (count : ℕ) (incoming : Bytes) :
    drainChunk count incoming =
      if count ≤ incoming.length then .ok (incoming.drop count) else .error closedDuringChunk := by
  induction count using Nat.strong_induction_on generalizing incoming with
  | _ count ih =>
    rw [drainChunk]
    split
    next hzero => simp [hzero]
    next hpos =>
      have hless : count - min count drainBuffer < count := by
        simp only [drainBuffer]
        omega
      simp only [readChunk]
      by_cases hfirst : min count drainBuffer ≤ incoming.length
      · simp only [hfirst, ↓reduceIte, ih _ hless, List.length_drop, List.drop_drop]
        by_cases hall : count ≤ incoming.length
        · rw [if_pos (by omega), if_pos hall]
          congr 2
          omega
        · rw [if_neg (by omega), if_neg hall]
      · simp only [hfirst, ↓reduceIte]
        rw [if_neg (by omega)]

inductive ChunkStep
  | accepted
  | complete
  | tooLarge
  deriving DecidableEq

structure ChunkReceiver where
  message : Bytes
  maxSize : ℕ
  deriving DecidableEq

def ChunkReceiver.new (maxSize : ℕ) : ChunkReceiver := ⟨[], maxSize⟩

def ChunkReceiver.pushChunk (receiver : ChunkReceiver) (chunk : Bytes) (isLast : Bool) :
    ChunkStep × ChunkReceiver :=
  if 0 < receiver.maxSize ∧ receiver.maxSize < receiver.message.length + chunk.length then
    (.tooLarge, receiver)
  else
    (if isLast then .complete else .accepted,
      { receiver with message := receiver.message ++ chunk })

/-! ## Lines as they are read -/

@[elab_as_elim]
theorem lines_induction {P : Bytes → Prop} (last : ∀ line, lf ∉ line → P line)
    (more : ∀ line rest, lf ∉ line → P rest → P (line ++ lf :: rest)) (s : Bytes) : P s := by
  induction hlen : s.length using Nat.strong_induction_on generalizing s with
  | _ len ih =>
    by_cases h : lf ∈ s
    · obtain ⟨line, rest, rfl, hline⟩ := List.eq_append_cons_of_mem h
      have hshort : rest.length < len := by
        rw [← hlen, List.length_append, List.length_cons]
        omega
      exact more line rest hline (ih rest.length hshort rest rfl)
    · exact last s h

end IrixMail.Smtp
