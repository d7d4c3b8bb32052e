import IrixMail.Imap.Parser
import IrixMail.Imap.Session
import IrixMail.Library.Promises

/-!
# Literals on the wire

What an IMAP session reads from its client, octet by octet. A literal follows the line
that announces it; a client that writes `{n+}` sends the octets without waiting for the
server to agree. What the commands other than APPEND do is left to `Handlers`: they may
read further lines, as AUTHENTICATE and IDLE do, and no literals. A write that fails
ends the session like a read that fails, and is left out.
-/

namespace IrixMail.Imap.Literals
open Library Parsing

def maxLineLength : ℕ := 8192
def maxAppendSize : ℕ := 25 * 1024 * 1024

/-! ## APPEND -/

structure AppendGroup where
  flags : List String
  internaldate : Option ℕ
  literalLen : ℕ
  sync : Bool

structure AppendCommand extends AppendGroup where
  mailbox : String

inductive AppendError
  | missingMailbox
  | missingLiteral
  | badDate (literalLen : ℕ) (sync : Bool)

inductive Continuation
  | finish
  | group (next : AppendGroup)
  | bad (literalLen : ℕ) (sync : Bool)

inductive AppendResult
  | stored (uid : ℕ)
  | overQuota
  | failed

/-- What the session has around it: how octets are read as text, and dates. -/
structure Texts extends Decoding where
  parseInternaldate : String → Option ℕ

variable (texts : Texts)

def flagsOf (args : List Token) : List String :=
  ((args.findSome? Token.asList).map fun items =>
    items.filterMap (Token.asStr texts.toDecoding)).getD []

def dateOf (args : List Token) : Option String :=
  args.findSome? fun
    | .quoted value => some value
    | _ => none

/-- The date given among `args`; none inside when it is malformed. -/
def internaldateOf (args : List Token) : Option (Option ℕ) :=
  match dateOf args with
  | some value => (texts.parseInternaldate value).map some
  | none => some none

def parseAppend (args : List Token) : Except AppendError AppendCommand :=
  match args.head?.bind (Token.asStr texts.toDecoding) with
  | none => .error .missingMailbox
  | some mailbox =>
    match args.getLast? with
    | some (.literal length sync) =>
      match internaldateOf texts (args.dropLast.drop 1) with
      | none => .error (.badDate length sync)
      | some date => .ok ⟨⟨flagsOf texts args, date, length, sync⟩, mailbox⟩
    | _ => .error .missingLiteral

def parseContinuation (tokens : List Token) : Continuation :=
  match tokens.getLast? with
  | some (.literal length sync) =>
    match internaldateOf texts tokens.dropLast with
    | none => .bad length sync
    | some date => .group ⟨flagsOf texts tokens, date, length, sync⟩
  | _ => .finish

/-! ## Events -/

/-- Where in the session a line is read. -/
inductive Place
  | command (authenticated : Bool)
  /-- After a literal of a command other than APPEND. -/
  | continued
  /-- After the first message of an APPEND that was refused before it was stored. -/
  | refused
  /-- After a message that was stored. -/
  | next
  /-- After a message whose APPEND has failed. -/
  | drained
  /-- In the exchange of a command other than APPEND. -/
  | exchange
  deriving DecidableEq

inductive Reply
  | ready
  | untagged (message : String)
  | tagged (tag : String) (line : Line)
  deriving DecidableEq

inductive Event
  /-- `ended` when the line ends in LF, and not with the stream. -/
  | line (place : Place) (text : Bytes) (ended : Bool)
  | literal (octets : Bytes)
  | said (reply : Reply)
  deriving DecidableEq

abbrev Wire := Reader UInt8 Event

def say (reply : Reply) : Wire Unit := .emit (.said reply)

def respond (tag : String) (status : Status) (text : String) : Wire Unit :=
  say (.tagged tag (.tagged status none text))

/-- A line without its LF; `none` at the end of the stream. -/
def readLine (place : Place) : Wire (Option Bytes) := fun input =>
  let text := input.takeWhile (· ≠ lf)
  if maxLineLength < text.length then ([], .closed)
  else
    match input.dropWhile (· ≠ lf) with
    | _ :: rest => ([.line place text true], .ok (some text) rest)
    | [] => if text = [] then ([], .ok none []) else ([.line place text false], .ok (some text) [])

def readLiteral (length : ℕ) : Wire Bytes := fun input =>
  if length ≤ input.length then
    ([.literal (input.take length)], .ok (input.take length) (input.drop length))
  else ([], .closed)

/-- What a command other than APPEND does with the connection. -/
inductive Handling (σ : Type)
  | done (s : σ)
  | close
  | say (reply : Reply) (next : Handling σ)
  | readLine (next : Option Bytes → Handling σ)

structure Handlers (σ μ : Type) where
  authenticated : σ → Bool
  mailboxNamed : σ → String → Option μ
  uidValidity : μ → ℕ
  /-- None when storing fails with an error, which ends the session. -/
  appendOne : σ → μ → List String → Option ℕ → Bytes → Option (AppendResult × σ)
  handle : σ → ParsedCommand → Handling σ

/-! ## The session -/

def leadingTag (line : Bytes) : Option String :=
  let line := stripCrlf line
  let tag := line.takeWhile (!isSpace ·)
  if tag.length = line.length ∨ tag = [] then none else texts.strict tag

def reject (line : Bytes) (error : ParseError) : Wire Unit :=
  match leadingTag texts line with
  | some tag => respond tag .bad error.message
  | none => say (.untagged error.message)

def whenTokens {α : Type} (scan : Scan (List Token)) (failed : ParseError → Wire α)
    (next : List Token → Wire α) : Wire α :=
  match scan with
  | .ok ts => next ts
  | .error (.error e) => failed e
  | .error .endless => .loopForever

inductive CommandRead
  | ready (command : ParsedCommand)
  | rejected

def proceed (sync : Bool) : Wire Unit := if sync then say .ready else pure ()

def isAppend (command : ParsedCommand) : Bool := eqIgnoreAsciiCase command.name "APPEND"

def resolveFrom : ℕ → ParsedCommand → List Token → Wire CommandRead
  | 0, _, _ => .loopForever
  | n + 1, command, resolved =>
    match command.args.getLast? with
    | some (.literal length sync) =>
      if maxLineLength < length then do
        respond command.tag .bad "literal too long"
        .close
      else do
        proceed sync
        let octets ← readLiteral length
        match ← readLine .continued with
        | none => .close
        | some continuation =>
          whenTokens (tokenizeArgs texts.toDecoding continuation)
            (fun e => do
              reject texts continuation e
              pure .rejected)
            fun ts => resolveFrom n { command with args := ts }
              (resolved ++ command.args.dropLast ++ [.literalValue octets])
    | _ => pure (.ready { command with args := resolved ++ command.args })

def resolveLiterals (command : ParsedCommand) : Wire CommandRead :=
  if isAppend command then pure (.ready command)
  else .rounds fun n => resolveFrom texts n command []

def Handling.serve {σ : Type} : Handling σ → Wire σ
  | .done s => pure s
  | .close => .close
  | .say reply next => do
    Literals.say reply
    next.serve
  | .readLine next => do
    let line ← Literals.readLine .exchange
    (next line).serve

def readTrailing (place : Place) : Wire Bytes := do
  let line ← readLine place
  pure (line.getD [])

def drainFrom : ℕ → Bytes → Wire Unit
  | 0, _ => .loopForever
  | n + 1, line =>
    whenTokens (tokenizeArgs texts.toDecoding line) (fun _ => pure ()) fun ts =>
      match ts.getLast? with
      | some (.literal length sync) =>
        if sync ∨ maxAppendSize < length then pure ()
        else do
          let _ ← readLiteral length
          match ← readLine .drained with
          | none => pure ()
          | some line => drainFrom n line
      | _ => pure ()

def drainAppends (firstLine : Bytes) : Wire Unit :=
  .rounds fun n => drainFrom texts n firstLine

def tooBig (tag : String) : Wire Unit :=
  respond tag .no "[TOOBIG] message exceeds the fixed limit"

def badDate (tag : String) : Wire Unit := respond tag .bad "cannot parse the APPEND date-time"

section
variable {σ μ : Type} (h : Handlers σ μ) (tag : String)

def abandon (s : σ) (code : Option Code) (text : String) : Wire σ := do
  let trailing ← readTrailing .drained
  drainAppends texts trailing
  say (.tagged tag (.tagged .no code text))
  pure s

def completed (s : σ) (mailbox : μ) (uids : List ℕ) : Wire σ := do
  say (.tagged tag (.tagged .ok
    (some (.appendUid (h.uidValidity mailbox) (compressSequence uids))) "APPEND completed"))
  pure s

def refuseGroup (s : σ) (length : ℕ) (sync : Bool) : Wire σ :=
  if sync then do
    badDate tag
    pure s
  else if maxAppendSize < length then do
    badDate tag
    .close
  else do
    let _ ← readLiteral length
    let rest ← readTrailing .drained
    drainAppends texts rest
    badDate tag
    pure s

def appendFrom (mailbox : μ) : ℕ → σ → AppendGroup → List ℕ → Wire σ
  | 0, _, _, _ => .loopForever
  | n + 1, s, group, uids =>
    if maxAppendSize < group.literalLen then do
      tooBig tag
      if group.sync then pure s else .close
    else do
      proceed group.sync
      let message ← readLiteral group.literalLen
      match h.appendOne s mailbox group.flags group.internaldate message with
      | none => .close
      | some (.overQuota, s) => abandon texts tag s (some .overQuota) "not enough storage"
      | some (.failed, s) => abandon texts tag s none "APPEND failed"
      | some (.stored uid, s) => do
        let trailing ← readTrailing .next
        whenTokens (tokenizeArgs texts.toDecoding trailing)
          (fun _ => completed h tag s mailbox (uids ++ [uid]))
          fun ts =>
            match parseContinuation texts ts with
            | .finish => completed h tag s mailbox (uids ++ [uid])
            | .group next => appendFrom mailbox n s next (uids ++ [uid])
            | .bad length sync => refuseGroup texts tag s length sync

/-- The first message of an APPEND that cannot go on. A `{n+}` literal is already on its
way. -/
def drainFirst (length : ℕ) (sync : Bool) : Wire Unit :=
  if sync then pure ()
  else do
    let _ ← readLiteral length
    let _ ← readTrailing .refused
    pure ()

end

def runAppend {σ μ : Type} (h : Handlers σ μ) (s : σ) (parsed : ParsedCommand) : Wire σ :=
  if h.authenticated s = false then do
    respond parsed.tag .no "Authenticate first"
    pure s
  else
    match parseAppend texts parsed.args with
    | .error (.badDate length sync) =>
      if sync = false ∧ maxAppendSize < length then do
        badDate parsed.tag
        .close
      else do
        drainFirst length sync
        badDate parsed.tag
        pure s
    | .error _ => do
      respond parsed.tag .bad "APPEND requires a mailbox and a message literal"
      pure s
    | .ok command =>
      if maxAppendSize < command.literalLen then do
        tooBig parsed.tag
        if command.sync then pure s else .close
      else
        match h.mailboxNamed s command.mailbox with
        | none => do
          drainFirst command.literalLen command.sync
          say (.tagged parsed.tag (.tagged .no (some .tryCreate) "mailbox does not exist"))
          pure s
        | some mailbox =>
          .rounds fun n => appendFrom texts h parsed.tag mailbox n s command.toAppendGroup []

section
variable {σ μ : Type} (h : Handlers σ μ)

def dispatch (s : σ) (parsed : ParsedCommand) : Wire σ :=
  if isAppend parsed then runAppend texts h s parsed else (h.handle s parsed).serve

def serveLine (s : σ) (line : Bytes) : Wire σ :=
  match parseCommand texts.toDecoding line with
  | .error .endless => .loopForever
  | .error (.error e) => do
    reject texts line e
    pure s
  | .ok command => do
    match ← resolveLiterals texts command with
    | .ready command => dispatch texts h s command
    | .rejected => pure s

def serveFrom : ℕ → σ → Wire Unit
  | 0, _ => .loopForever
  | n + 1, s => do
    match ← readLine (.command (h.authenticated s)) with
    | none => .close
    | some line => do
      let s ← serveLine texts h s line
      serveFrom n s

def serve (s : σ) : Wire Unit := .rounds fun n => serveFrom texts h n s

end

end IrixMail.Imap.Literals
