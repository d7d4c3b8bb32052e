import IrixMail.Smtp.Session

/-!
# Carrying out a command line

Every verb has its handler. A handler that refuses answers and leaves the
session as it was, unless the source resets it on the way.
-/

namespace IrixMail.Smtp
open Library Prog Store Mail Directory

/-- What a command line leads to; `submit` hands a complete message over. -/
inductive Step
  | stay (s : Session)
  | leave (flow : Flow) (s : Session)
  | submit (message : Message) (s : Session)

namespace Session

def answer (reply : String) (s : Session) : Action Step := do
  let s ← checked (s.write reply)
  pure (.stay s)

def readLine (s : Session) : Except Error (Option Bytes × Session) :=
  match Smtp.readLine s.wire.failure [] s.wire.incoming with
  | .error e => .error e
  | .ok (line, rest) => .ok (line, s.withIncoming rest)

def readData (s : Session) : Except Error (Option Bytes × Session) :=
  match Smtp.readData s.wire.failure s.wire.incoming with
  | .error e => .error e
  | .ok (body, rest) => .ok (body, s.withIncoming rest)

def readChunk (count : ℕ) (s : Session) : Except Error (Bytes × Session) :=
  match Smtp.readChunk count s.wire.incoming with
  | .error e => .error e
  | .ok (chunk, rest) => .ok (chunk, s.withIncoming rest)

def drainChunk (count : ℕ) (s : Session) : Except Error Session :=
  match Smtp.drainChunk count s.wire.incoming with
  | .error e => .error e
  | .ok rest => .ok (s.withIncoming rest)

/-! ## Handlers -/

variable (lib : Libraries) (answers : Answers) (line : Bytes) (s : Session)

def greeted : Session :=
  { s with
    data := { s.data.resetTransaction with heloDomain := heloArgument lib line }
    chunks := none
    stage := .greeted }

def onEhlo : Action Step :=
  answer (lib.writeEhlo (ehloResponse maxMessageSize s.data.isTls s.data.authenticated))
    (s.greeted lib line)

def onHelo : Action Step := answer heloResponse (s.greeted lib line)

def withSender (path : ReversePath) : Session :=
  { s with
    data := { s.data.resetTransaction with
      mailFrom := some path.address, smtputf8 := path.smtputf8 }
    chunks := none
    stage := .mail }

def acceptSender (params : MailParams) : Gate → Action Step
  | .reject reply => s.answer reply
  | .proceed =>
    match mailReply params (s.stage ≠ .connected) s.data.mailFrom.isSome maxMessageSize with
    | .reject reply => s.answer reply
    | .accept path reply => (s.withSender path).answer reply

def onMail : Action Step :=
  match s.submissionGate with
  | some reply => s.answer reply
  | none =>
    match parseCommand lib (terminated line) with
    | .ok (.mail params) => do
      let gate ← s.checkSender params.address
      s.acceptSender params gate
    | _ => s.answer mailSyntaxError

def greylistDefers (recipient : String) : Option String :=
  if s.inboundServices.isSome &&
      answers.greylistDefers (s.data.mailFrom.getD "") recipient s.data.authenticated then
    some greylisted
  else none

def withRecipient (address : String) : Session :=
  { s with data := { s.data with rcptTo := s.data.rcptTo ++ [address] }, stage := .rcpt }

def acceptRecipient (params : RcptParams) (recipient : Recipient) : Action Step :=
  match rcptReply params s.data.mailFrom.isSome recipient s.data.authenticated
    s.data.rcptTo.length defaultMaxRecipients with
  | .reject reply => s.answer reply
  | .accept address reply =>
    match s.greylistDefers answers address with
    | some reply => s.answer reply
    | none => (s.withRecipient address).answer reply

/-- The wire parser collapses `<postmaster>` to an empty path. -/
def recipientPath (params : RcptParams) : RcptParams :=
  if params.address = "" then ⟨"postmaster"⟩ else params

def onRcpt : Action Step :=
  match s.submissionGate with
  | some reply => s.answer reply
  | none =>
    match parseCommand lib (terminated line) with
    | .ok (.rcpt params) => do
      let recipient ← s.classifyRecipient (recipientPath params).address
      s.acceptRecipient answers (recipientPath params) recipient
    | _ => s.answer rcptSyntaxError

def handOver (body : Bytes) : Step :=
  .submit ⟨s.data.mailFrom, s.data.rcptTo, body⟩
    { s with data := { s.data with mailFrom := none, rcptTo := [] } }

def onData : Action Step :=
  match s.submissionGate with
  | some reply => s.answer reply
  | none =>
    match dataReply (s.stage = .rcpt) with
    | .reject reply => s.answer reply
    | .ready reply => do
      let s ← checked (s.write reply)
      match ← checked s.readData with
      | (some body, s) => pure (s.handOver body)
      | (none, s) => s.afterMessage.answer tooLargeReply

def disposeChunk (chunkSize : ℕ) (reply : String) : Action Step :=
  match chunkDisposal chunkSize maxMessageSize with
  | .drain count => do
    let s ← checked (s.drainChunk count)
    s.answer reply
  | .close => do
    let s ← checked (s.write reply)
    pure (.leave .close s)

def withChunks (chunks : Option ChunkReceiver) : Session := { s with chunks := chunks }

def storeChunk (chunk : Bytes) (isLast : Bool) : Action Step :=
  match (s.chunks.getD (.new maxMessageSize)).pushChunk chunk isLast with
  | (.accepted, receiver) => (s.withChunks (some receiver)).answer chunkOkReply
  | (.complete, receiver) => pure ((s.withChunks none).handOver receiver.message)
  | (.tooLarge, _) => (s.afterMessage.withChunks none).answer tooLargeReply

def onBdat : Action Step :=
  match s.submissionGate with
  | some reply => s.answer reply
  | none =>
    match parseCommand lib (terminated line) with
    | .ok (.bdat chunkSize isLast) =>
      let accumulated := (s.chunks.map fun c => c.message.length).getD 0
      match bdatReply (s.stage = .rcpt) chunkSize accumulated maxMessageSize isLast with
      | .reject reply => (s.withChunks none).disposeChunk chunkSize reply
      | .tooLarge reply => (s.afterMessage.withChunks none).disposeChunk chunkSize reply
      | .receive chunkSize isLast => do
        let (chunk, s) ← checked (s.readChunk chunkSize)
        s.storeChunk chunk isLast
    | _ => s.answer bdatSyntaxError

def onStartTls : Action Step := do
  let reply := starttlsReply s.data.isTls true
  let s ← checked (s.write reply.bytes)
  pure (if reply.upgrades then .leave .upgrade s else .stay s)

/-! ### AUTH -/

/-- The peer's answer to a challenge; `none` when it cancels. -/
def readAuthResponse : Except Error (Option String × Session) :=
  match s.readLine with
  | .error e => .error e
  | .ok (none, _) => .error closedDuringAuth
  | .ok (some line, s) =>
    let response := trim (lib.utf8Lossy (stripCrlf line))
    .ok (if response = "*" then none else some response, s)

def verifyCredentials (credentials : Credentials) : Except Error LoginAttempt :=
  if s.hasDirectory then answers.login credentials else .ok .denied

def withAccount (account : Account) : Session :=
  { s with data := { s.data with authenticated := true }, account := some account }

def resolveLogin : LoginAttempt → Action Step
  | .granted account => (s.withAccount account).answer successReply
  | .denied => s.answer credentialsInvalidReply
  | .throttled => s.answer tooManyAttemptsReply

def runAuth : ℕ → SaslStep × SaslExchange → Session → Action Step
  | 0, _, _ => .fail closedDuringAuth
  | n + 1, (.challenge bytes, exchange), s => do
    let s ← checked (s.write bytes)
    match ← checked (s.readAuthResponse lib) with
    | (none, s) => s.answer authCancelled
    | (some response, s) => runAuth n (exchange.advance lib response) s
  | _ + 1, (.reply bytes, _), s => s.answer bytes
  | _ + 1, (.resolved credentials, _), s => do
    let attempt ← checked (s.verifyCredentials answers credentials)
    s.resolveLogin attempt

def onAuth : Action Step :=
  match parseCommand lib (terminated line) with
  | .ok (.auth mechanism initialResponse) =>
    runAuth lib answers (s.wire.incoming.length + 2)
      (SaslExchange.begin lib mechanism s.data.isTls s.data.authenticated initialResponse) s
  | _ => s.answer authSyntaxError

def reset : Session :=
  { s with
    data := s.data.resetTransaction
    chunks := none
    stage := if s.stage = .connected then .connected else .greeted }

def onRset : Action Step := s.reset.answer rsetReply

def onQuit : Action Step := do
  let s ← checked (s.write quitReply)
  pure (.leave .close s)

/-! ## The loop -/

def receive : Action Step :=
  match Verb.fromLine line with
  | .ehlo => s.onEhlo lib line
  | .helo => s.onHelo lib line
  | .mail => s.onMail lib line
  | .rcpt => s.onRcpt lib answers line
  | .data => s.onData
  | .bdat => s.onBdat lib line
  | .startTls => s.onStartTls
  | .auth => s.onAuth lib answers line
  | .rset => s.onRset
  | .noop => s.answer noopReply
  | .quit => s.onQuit
  | .unknown => s.answer unrecognized

def conclude (message : Message) : Action Session := do
  let (reply, s) ← s.acceptBody lib answers message
  checked (s.afterMessage.write reply)

def dispatch : Action (Option Flow × Session) := do
  match ← s.receive lib answers line with
  | .stay s => pure (none, s)
  | .leave flow s => pure (some flow, s)
  | .submit message s => do
    let s ← s.conclude lib answers message
    pure (none, s)

/-- Every line takes an octet, so that more rounds than there are octets are
never made. -/
def serve (answers : ℕ → Answers) : ℕ → Session → Action (Flow × Session)
  | 0, s => pure (.close, s)
  | n + 1, s => do
    match ← checked s.readLine with
    | (none, s) => pure (.close, s)
    | (some line, s) => do
      match ← s.dispatch lib (answers n) line with
      | (some flow, s) => pure (flow, s)
      | (none, s) => serve answers n s

structure Arrival where
  tooManyConnections : Bool
  dnsbl : DnsblDecision

def rateLimitConnection (arrival : Arrival) : Option String :=
  if !s.starttlsUpgrade && s.inboundServices.isSome && arrival.tooManyConnections then
    some tooManyConnectionsReply
  else none

def checkBlocklist (arrival : Arrival) : Session :=
  if s.inboundServices.isSome then { s with dnsbl := arrival.dnsbl } else s

def run (arrival : Arrival) (answers : ℕ → Answers) : Action (Flow × Session) :=
  match s.rateLimitConnection arrival with
  | some reply => do
    let s ← checked (s.write reply)
    pure (.close, s)
  | none => do
    let s := s.checkBlocklist arrival
    let s ← checked (if s.starttlsUpgrade then .ok s else s.write greeting)
    s.serve lib answers (s.wire.incoming.length + 1)

end Session
end IrixMail.Smtp
