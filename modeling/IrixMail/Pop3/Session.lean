import IrixMail.Directory.Login
import IrixMail.Jmap.Value
import IrixMail.Pop3.Maildrop
import IrixMail.Smtp.Commands

/-!
# A POP3 session

A session reads its lines one after the other and answers each. Logging in loads
the maildrop; nothing is deleted before QUIT, and a connection that is lost deletes
nothing.
-/

namespace IrixMail.Pop3
open Library Prog Store Mail Directory
open Smtp (stripCrlf)
open Jmap (parseUnsigned parseU32)

inductive Verb
  | user | pass | apop | capa | stls | auth | stat | list | uidl | retr | top | dele | rset | noop
  | utf8 | quit | unknown
  deriving DecidableEq

def verbs : List (String × Verb) :=
  [("USER", .user), ("PASS", .pass), ("APOP", .apop), ("CAPA", .capa), ("STLS", .stls),
    ("AUTH", .auth), ("STAT", .stat), ("LIST", .list), ("UIDL", .uidl), ("RETR", .retr),
    ("TOP", .top), ("DELE", .dele), ("RSET", .rset), ("NOOP", .noop), ("UTF8", .utf8),
    ("QUIT", .quit)]

def Verb.fromWord (word : String) : Verb :=
  ((verbs.find? fun entry => eqIgnoreAsciiCase entry.1 word).map Prod.snd).getD .unknown

structure ParsedCommand where
  verb : String
  rest : String
  args : List String
  deriving DecidableEq

/-- `split_whitespace`, with the word that is being read. -/
def wordsOf : List Char → List Char → List String
  | word, [] => if word.isEmpty then [] else [String.ofList word]
  | word, c :: cs =>
    if !isWhitespace c then wordsOf (word ++ [c]) cs
    else if word.isEmpty then wordsOf [] cs
    else String.ofList word :: wordsOf [] cs

def splitWhitespace (text : String) : List String := wordsOf [] text.toList

def parseCommand (text : String) : ParsedCommand :=
  let trimmed := trimStart isWhitespace text.toList
  let verb := trimmed.takeWhile fun c => !isWhitespace c
  let rest := String.ofList (trimStart isWhitespace (trimmed.drop verb.length))
  ⟨String.ofList verb, rest, splitWhitespace rest⟩

inductive State
  | authorization
  | transaction
  deriving DecidableEq

inductive Flow
  | close
  | upgrade
  deriving DecidableEq

structure Session where
  state : State := .authorization
  user : Option String := none
  isTls : Bool := false
  authenticated : Bool := false
  account : Option Account := none
  messages : Maildrop := []

/-! ## AUTH -/

inductive Mechanism
  | plain
  | login
  | unsupported
  deriving DecidableEq

def Mechanism.parse (name : String) : Mechanism :=
  if eqIgnoreAsciiCase name "PLAIN" then .plain
  else if eqIgnoreAsciiCase name "LOGIN" then .login
  else .unsupported

structure Credentials where
  username : String
  password : String
  deriving DecidableEq

inductive SaslStep
  | challenge (text : String)
  | resolved (credentials : Credentials)
  | failed (reason : String)
  deriving DecidableEq

inductive SaslExchange
  | plainAwaitingResponse
  | loginAwaitingUsername
  | loginAwaitingPassword (username : String)
  deriving DecidableEq

inductive SaslStart
  | reply (line : String)
  | continue_ (exchange : SaslExchange) (step : SaslStep)

def decodePlain (payload : Bytes) : Option Credentials :=
  (Smtp.decodePlain payload).map fun credentials => ⟨credentials.authcid, credentials.password⟩

/-- What the session takes from other crates. -/
structure Libraries where
  decodeBase64 : String → Option Bytes
  utf8Lossy : Bytes → String

section Sasl
variable (lib : Libraries)

def challengeUsername : String := "VXNlcm5hbWU6"
def challengePassword : String := "UGFzc3dvcmQ6"

def SaslExchange.advance (exchange : SaslExchange) (response : String) : SaslExchange × SaslStep :=
  match lib.decodeBase64 (trim response) with
  | none => (exchange, .failed "invalid base64 in authentication response")
  | some decoded =>
    match exchange with
    | plainAwaitingResponse =>
      match decodePlain decoded with
      | some credentials => (plainAwaitingResponse, .resolved credentials)
      | none => (plainAwaitingResponse, .failed "malformed PLAIN authentication response")
    | loginAwaitingUsername =>
      match fromUtf8 decoded with
      | some username => (loginAwaitingPassword username, .challenge challengePassword)
      | none => (plainAwaitingResponse, .failed "invalid username encoding")
    | loginAwaitingPassword username =>
      match fromUtf8 decoded with
      | some password => (plainAwaitingResponse, .resolved ⟨username, password⟩)
      | none => (plainAwaitingResponse, .failed "invalid password encoding")

def SaslExchange.start (exchange : SaslExchange) (challenge : String) :
    Option String → SaslStart
  | some response => .continue_ (exchange.advance lib response).1 (exchange.advance lib response).2
  | none => .continue_ exchange (.challenge challenge)

def SaslExchange.begin (mechanism : Mechanism) (isTls : Bool) (initial : Option String) :
    SaslStart :=
  if !isTls then .reply "-ERR [AUTH] STLS required before AUTH\r\n"
  else
    match mechanism with
    | .plain => plainAwaitingResponse.start lib "" initial
    | .login => loginAwaitingUsername.start lib challengeUsername initial
    | .unsupported => .reply "-ERR unsupported authentication mechanism\r\n"

end Sasl

/-! ## Replies -/

def okay (text : String) : Bytes := utf8Bytes ("+OK " ++ text ++ "\r\n")
def err (text : String) : Bytes := utf8Bytes ("-ERR " ++ text ++ "\r\n")

def authList : String := "+OK\r\nPLAIN\r\nLOGIN\r\n.\r\n"
def quitResponse : String := "+OK IRIXMAIL POP3 signing off\r\n"

def capaResponse (isTls : Bool) : String :=
  "+OK capabilities follow\r\n" ++
    (if isTls then "USER\r\nSASL PLAIN LOGIN\r\n" else "STLS\r\n") ++
    "TOP\r\nUIDL\r\nRESP-CODES\r\nPIPELINING\r\nEXPIRE NEVER\r\nUTF8\r\n" ++
    "IMPLEMENTATION IRIXMAIL\r\n.\r\n"

/-- A body as it goes over the wire: lines end in CRLF, and a dot that starts a line
is doubled. -/
def wireFrom : Bool → UInt8 → Bytes → Bytes
  | _, _, [] => []
  | atLineStart, last, byte :: rest =>
    (if byte = 10 && last != 13 then [13] else []) ++
      (if atLineStart && byte = 46 then [46] else []) ++
      byte :: wireFrom (byte == 10) byte rest

def wireBody (body : Bytes) : Bytes := wireFrom true 0 body

def closeLines (out : Bytes) : Bytes :=
  (if [13, 10].isSuffixOf out then out else out ++ [13, 10]) ++ [46, 13, 10]

def retrResponse (size : ℕ) (body : Bytes) : Bytes :=
  utf8Bytes s!"+OK {size} octets\r\n" ++ closeLines (wireBody body)

def takeLines : ℕ → Bytes → Bytes
  | 0, _ => []
  | _, [] => []
  | count + 1, byte :: rest =>
    if byte = 10 then byte :: takeLines count rest else byte :: takeLines (count + 1) rest

def topResponse (headers body : Bytes) (lines : ℕ) : Bytes :=
  closeLines (utf8Bytes "+OK\r\n" ++ wireBody headers ++ wireBody (takeLines lines body))

/-! ## Commands -/

/-- What is left after a command: the lines that were not read, the session, the
replies, and whether the connection goes on. -/
structure Turn where
  lines : List Bytes
  session : Session
  replies : List Bytes
  flow : Option Flow := none

def authenticateFirst : Bytes := err "authenticate first"

namespace Session
variable (env : Env) (secrets : Secrets) (policy : ThrottlePolicy) (lib : Libraries) (ip : String)
variable (s : Session) (lines : List Bytes)

def answer (reply : Bytes) : Turn := ⟨lines, s, [reply], none⟩

def enter (account : Account) : Action Session := do
  let messages ← loadMaildrop account
  pure { s with state := .transaction, authenticated := true, account := some account, messages }

def onUser (command : ParsedCommand) : Turn :=
  if s.state ≠ .authorization then s.answer lines (err "already in the transaction state")
  else if trim command.rest = "" then s.answer lines (err "username required")
  else { s with user := some command.rest }.answer lines (okay "send PASS")

def onPass (password : String) : Action Turn :=
  if s.state ≠ .authorization then pure (s.answer lines (err "already in the transaction state"))
  else
    match s.user with
    | none => pure (s.answer lines (err "send USER first"))
    | some username =>
      if !s.isTls then pure (s.answer lines (err "[AUTH] STLS required before PASS"))
      else do
        match ← attemptLogin secrets policy (some ip) username password .mail with
        | .granted account _ => do
          let s ← s.enter account
          pure (s.answer lines (okay "mailbox ready"))
        | .denied => pure (s.answer lines (err "authentication failed"))
        | .throttled =>
          pure (s.answer lines (err "[AUTH] too many failed authentication attempts"))

def connectionClosed : Error := .protocol "connection closed during AUTH"
def lineTooLong : Error := .protocol "command line exceeds the maximum length"
def maxLineLength : ℕ := 1024

def resolveCredentials (credentials : Credentials) (replies : List Bytes) : Action Turn := do
  match ← attemptLogin secrets policy (some ip) credentials.username credentials.password .mail with
  | .granted account _ => do
    let s ← s.enter account
    pure ⟨lines, s, replies ++ [okay "mailbox ready"], none⟩
  | .denied => pure ⟨lines, s, replies ++ [err "authentication failed"], none⟩
  | .throttled =>
    pure ⟨lines, s, replies ++ [err "[AUTH] too many failed authentication attempts"], none⟩

def runExchange : List Bytes → SaslExchange × SaslStep → List Bytes → Action Turn
  | lines, (_, .failed reason), replies => pure ⟨lines, s, replies ++ [err reason], none⟩
  | lines, (_, .resolved credentials), replies =>
    s.resolveCredentials secrets policy ip lines credentials replies
  | [], (_, .challenge _), _ => .fail connectionClosed
  | line :: lines, (exchange, .challenge text), replies =>
    let replies := replies ++ [utf8Bytes ("+ " ++ text ++ "\r\n")]
    let response := trim (lib.utf8Lossy line)
    if maxLineLength < line.length then .fail lineTooLong
    else if response = "*" then
      pure ⟨lines, s, replies ++ [err "authentication cancelled"], none⟩
    else runExchange lines (exchange.advance lib response) replies

def runAuth (command : ParsedCommand) : Action Turn :=
  if s.state ≠ .authorization then pure (s.answer lines (err "already in the transaction state"))
  else
    match command.args with
    | [] => pure (s.answer lines (utf8Bytes authList))
    | name :: rest =>
      match SaslExchange.begin lib (Mechanism.parse name) s.isTls rest.head? with
      | .reply line => pure (s.answer lines (utf8Bytes line))
      | .continue_ exchange step => s.runExchange secrets policy lib ip lines (exchange, step) []

def onStls : Turn :=
  if !s.isTls && s.state ≠ .authorization then s.answer lines (err "STLS not allowed now")
  else if s.isTls then s.answer lines (err "TLS already active")
  else ⟨lines, s, [okay "begin TLS negotiation"], some .upgrade⟩

def listing (all : String) (one : ℕ → String) (command : ParsedCommand) : Turn :=
  match command.args with
  | [] => s.answer lines (utf8Bytes all)
  | arg :: _ =>
    match parseU32 arg with
    | some number => s.answer lines (utf8Bytes (one number))
    | none => s.answer lines (err "invalid message number")

def bodyOf (number : Option ℕ) : Action (Option (MessageEntry × Body)) :=
  match number.bind s.messages.find, s.account with
  | some message, some account => do
    let body ← loadBody account.mailId message.documentId
    pure (body.map fun body => (message, body))
  | _, _ => pure none

def onRetr (command : ParsedCommand) : Action Turn := do
  match ← s.bodyOf (command.args.head?.bind parseU32) with
  | some (message, body) => pure (s.answer lines (retrResponse message.size body.raw))
  | none => pure (s.answer lines (utf8Bytes Maildrop.noSuchMessage))

def sliceOf (raw : Bytes) (range : ByteRange) : Except Error Bytes :=
  if range.start ≤ range.stop ∧ range.stop ≤ raw.length then
    .ok ((raw.drop range.start).take (range.stop - range.start))
  else .error .panicked

def onTop (command : ParsedCommand) : Action Turn :=
  match command.args.head?.bind parseU32, command.args[1]?.bind (parseUnsigned (2 ^ 64)) with
  | some number, some count => do
    match ← s.bodyOf (some number) with
    | some (_, body) => do
      let header ← checked (sliceOf body.raw body.header)
      let text ← checked (sliceOf body.raw body.body)
      pure (s.answer lines (topResponse header text count))
    | none => pure (s.answer lines (utf8Bytes Maildrop.noSuchMessage))
  | _, _ => pure (s.answer lines (err "TOP expects a message number and line count"))

def onDele (command : ParsedCommand) : Turn :=
  match command.args.head?.bind parseU32 with
  | some number =>
    let (messages, response) := s.messages.dele number
    { s with messages }.answer lines (utf8Bytes response)
  | none => s.answer lines (err "DELE expects a message number")

def onRset : Turn :=
  let (messages, response) := s.messages.rset
  { s with messages }.answer lines (utf8Bytes response)

def onQuit : Action Turn :=
  match s.state, s.account with
  | .transaction, some account => do
    let messages ← commitDeletions env account.mailId s.messages
    pure ⟨lines, { s with messages }, [utf8Bytes quitResponse], some .close⟩
  | _, _ => pure ⟨lines, s, [utf8Bytes quitResponse], some .close⟩

def inTransaction (turn : Action Turn) : Action Turn :=
  if s.state = .transaction then turn else pure (s.answer lines authenticateFirst)

def dispatch (command : ParsedCommand) : Action Turn :=
  match Verb.fromWord command.verb with
  | .user => pure (s.onUser lines command)
  | .pass => s.onPass secrets policy ip lines command.rest
  | .apop => pure (s.answer lines (err "APOP is not supported"))
  | .capa => pure (s.answer lines (utf8Bytes (capaResponse s.isTls)))
  | .stls => pure (s.onStls lines)
  | .auth => s.runAuth secrets policy lib ip lines command
  | .stat => s.inTransaction lines (pure (s.answer lines (utf8Bytes s.messages.statResponse)))
  | .list => s.inTransaction lines
      (pure (s.listing lines s.messages.listAll s.messages.listOne command))
  | .uidl => s.inTransaction lines
      (pure (s.listing lines s.messages.uidlAll s.messages.uidlOne command))
  | .retr => s.inTransaction lines (s.onRetr lines command)
  | .top => s.inTransaction lines (s.onTop lines command)
  | .dele => s.inTransaction lines (pure (s.onDele lines command))
  | .rset => s.inTransaction lines (pure (s.onRset lines))
  | .noop => s.inTransaction lines (pure (s.answer lines (utf8Bytes "+OK\r\n")))
  | .utf8 => pure (s.answer lines (okay "UTF8 enabled"))
  | .quit => s.onQuit env lines
  | .unknown => pure (s.answer lines (err "unknown command"))

def serve : ℕ → List Bytes → Session → Action (Flow × Session)
  | 0, _, s => pure (.close, s)
  | _ + 1, [], s => pure (.close, s)
  | n + 1, line :: lines, s =>
    if maxLineLength < line.length then .fail lineTooLong
    else do
      let turn ← s.dispatch env secrets policy lib ip lines
        (parseCommand (lib.utf8Lossy (stripCrlf line)))
      match turn.flow with
      | some flow => pure (flow, turn.session)
      | none => serve n turn.lines turn.session

def run (lines : List Bytes) : Action (Flow × Session) :=
  s.serve env secrets policy lib ip (lines.length + 1) lines

end Session
end IrixMail.Pop3
