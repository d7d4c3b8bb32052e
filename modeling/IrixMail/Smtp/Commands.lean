import IrixMail.Directory.Records
import IrixMail.Smtp.Stream

/-!
# Commands and replies

How a command line is read, and what each command is answered from what the
session knows. The request parser, the base64 decoder and the layout of the
EHLO answer are libraries of the source.
-/

namespace IrixMail.Smtp
open Directory

def asciiBytes (s : String) : Bytes := s.toList.map fun c => UInt8.ofNat c.toNat

def toAsciiUppercase (b : UInt8) : UInt8 := if 97 ≤ b ∧ b ≤ 122 then b - 32 else b

/-! ## Verbs -/

inductive Verb
  | ehlo
  | helo
  | mail
  | rcpt
  | data
  | bdat
  | startTls
  | auth
  | rset
  | noop
  | quit
  | unknown
  deriving DecidableEq

def keywords : List (String × Verb) :=
  [("EHLO", .ehlo), ("HELO", .helo), ("MAIL", .mail), ("RCPT", .rcpt), ("DATA", .data),
    ("BDAT", .bdat), ("STARTTLS", .startTls), ("AUTH", .auth), ("RSET", .rset), ("NOOP", .noop),
    ("QUIT", .quit)]

def isBlank (b : UInt8) : Bool := b = 32 ∨ b = 9

def Verb.fromLine (line : Bytes) : Verb :=
  let word := line.takeWhile fun b => !(isBlank b || b = cr || b = lf)
  if word = [] ∨ 8 < word.length then .unknown
  else
    match keywords.find? fun k => asciiBytes k.1 = word.map toAsciiUppercase with
    | some (_, verb) => verb
    | none => .unknown

/-! ## The parser -/

/-- What the request parser makes of a line. -/
inductive Request
  | ehlo (host : String)
  | helo (host : String)
  | mail (address : String) (size : ℕ) (body8bitmime smtputf8 : Bool)
  | rcpt (address : String)
  | data
  | bdat (chunkSize : ℕ) (isLast : Bool)
  | startTls
  | auth (mechanism : ℕ) (initialResponse : String)
  | rset
  | noop
  | quit
  | other
  deriving DecidableEq

inductive ProtoError
  | needsMoreData
  | unknownCommand
  | invalidSenderAddress
  | invalidRecipientAddress
  | syntaxError (text : String)
  | invalidParameter (param : String)
  | unsupportedParameter (param : String)
  | responseTooLong
  | invalidResponse
  deriving DecidableEq

structure MailParams where
  address : String
  size : ℕ
  body8bitmime : Bool
  smtputf8 : Bool
  deriving DecidableEq

structure RcptParams where
  address : String
  deriving DecidableEq

inductive AuthMechanism
  | plain
  | login
  | unsupported
  deriving DecidableEq

inductive Command
  | ehlo (host : String)
  | helo (host : String)
  | mail (sender : MailParams)
  | rcpt (recipient : RcptParams)
  | data
  | bdat (chunkSize : ℕ) (isLast : Bool)
  | startTls
  | auth (mechanism : AuthMechanism) (initialResponse : String)
  | rset
  | noop
  | quit
  deriving DecidableEq

inductive ParseError
  | incomplete
  | unknownCommand
  | unsupported
  | invalidSender
  | invalidRecipient
  | malformed (expected : String)
  | invalidParameter (param : String)
  | unsupportedParameter (param : String)
  deriving DecidableEq

inductive Extension
  | enhancedStatusCodes
  | eightBitMime
  | smtpUtf8
  | pipelining
  | chunking
  | startTls
  | auth
  | size
  deriving DecidableEq

structure EhloResponse where
  hostname : String
  capabilities : List Extension
  authMechanisms : List AuthMechanism
  size : ℕ
  deriving DecidableEq

structure Libraries where
  parseRequest : Bytes → Except ProtoError Request
  authPlain : ℕ
  authLogin : ℕ
  writeEhlo : EhloResponse → String
  decodeBase64 : String → Option Bytes
  utf8Lossy : Bytes → String
  /-- The addresses of the From header of a message that can be parsed. -/
  originators : Bytes → Option (List String)

def textOf (bytes : Bytes) : String := String.ofList (bytes.map fun b => Char.ofNat b.toNat)

def plainRequest (line : Bytes) : Except ProtoError Request :=
  if (asciiBytes "MAIL FROM:<").isPrefixOf line then
    .ok (.mail (textOf ((line.drop 11).takeWhile (· != 62))) 0 false false)
  else if (asciiBytes "RCPT TO:<").isPrefixOf line then
    .ok (.rcpt (textOf ((line.drop 9).takeWhile (· != 62))))
  else if (asciiBytes "BDAT ").isPrefixOf line then
    let digits := (line.drop 5).takeWhile fun b => 48 ≤ b ∧ b ≤ 57
    .ok (.bdat (digits.foldl (fun n b => n * 10 + (b.toNat - 48)) 0)
      (line.drop (5 + digits.length) = asciiBytes " LAST\r\n"))
  else .error .unknownCommand

def Libraries.plain : Libraries where
  parseRequest := plainRequest
  authPlain := 1
  authLogin := 2
  writeEhlo r := "250 " ++ r.hostname ++ "\r\n"
  decodeBase64 _ := none
  utf8Lossy := textOf
  originators _ := none

variable (lib : Libraries)

def mapProtoError : ProtoError → ParseError
  | .needsMoreData => .incomplete
  | .unknownCommand => .unknownCommand
  | .invalidSenderAddress => .invalidSender
  | .invalidRecipientAddress => .invalidRecipient
  | .syntaxError text => .malformed text
  | .invalidParameter param => .invalidParameter param
  | .unsupportedParameter param => .unsupportedParameter param
  | .responseTooLong => .malformed "command"
  | .invalidResponse => .malformed "command"

def authMechanism (mechanism : ℕ) : AuthMechanism :=
  if mechanism = lib.authPlain then .plain
  else if mechanism = lib.authLogin then .login
  else .unsupported

def parseCommand (line : Bytes) : Except ParseError Command :=
  match lib.parseRequest line with
  | .error e => .error (mapProtoError e)
  | .ok (.ehlo host) => .ok (.ehlo host)
  | .ok (.helo host) => .ok (.helo host)
  | .ok (.mail address size body8bitmime smtputf8) =>
    .ok (.mail ⟨address, size, body8bitmime, smtputf8⟩)
  | .ok (.rcpt address) => .ok (.rcpt ⟨address⟩)
  | .ok .data => .ok .data
  | .ok (.bdat chunkSize isLast) => .ok (.bdat chunkSize isLast)
  | .ok .startTls => .ok .startTls
  | .ok (.auth mechanism initialResponse) =>
    .ok (.auth (authMechanism lib mechanism) initialResponse)
  | .ok .rset => .ok .rset
  | .ok .noop => .ok .noop
  | .ok .quit => .ok .quit
  | .ok .other => .error .unsupported

/-! ## Greeting -/

def hostname : String := "irixmail"
def greeting : String := "220 IRIXMAIL ESMTP ready\r\n"

def ehloResponse (maxSize : ℕ) (isTls authenticated : Bool) : EhloResponse where
  hostname := hostname
  capabilities :=
    [.enhancedStatusCodes, .eightBitMime, .smtpUtf8, .pipelining, .chunking] ++
      (if isTls then [] else [.startTls]) ++ (if isTls && !authenticated then [.auth] else []) ++
      if 0 < maxSize then [.size] else []
  authMechanisms := if isTls && !authenticated then [.plain, .login] else []
  size := if 0 < maxSize then maxSize else 0

def heloResponse : String := "250 " ++ hostname ++ " at your service\r\n"

def heloArgument (line : Bytes) : String :=
  match (stripCrlf line).dropWhile fun b => !isBlank b with
  | [] => ""
  | _ :: rest => lib.utf8Lossy ((rest.dropWhile isBlank).takeWhile fun b => !isBlank b)

/-! ## MAIL -/

def needGreeting : String := "503 5.5.1 Send EHLO/HELO first\r\n"
def nestedMail : String := "503 5.5.1 Sender already given\r\n"
def tooLargeReply : String := "552 5.3.4 Message size exceeds the fixed limit\r\n"
def senderOk : String := "250 2.1.0 Sender OK\r\n"
def mailSyntaxError : String := "501 5.5.4 Syntax error in MAIL command\r\n"

structure ReversePath where
  address : String
  smtputf8 : Bool
  deriving DecidableEq

inductive MailOutcome
  | reject (reply : String)
  | accept (path : ReversePath) (reply : String)
  deriving DecidableEq

def mailReply (params : MailParams) (greeted senderPending : Bool) (maxSize : ℕ) : MailOutcome :=
  if !greeted then .reject needGreeting
  else if senderPending then .reject nestedMail
  else if 0 < params.size ∧ 0 < maxSize ∧ maxSize < params.size then .reject tooLargeReply
  else .accept ⟨params.address, params.smtputf8⟩ senderOk

/-! ## RCPT -/

def needMail : String := "503 5.5.1 Send MAIL before RCPT\r\n"
def tooManyRecipients : String := "452 4.5.3 Too many recipients\r\n"
def noMailbox : String := "550 5.1.1 Mailbox does not exist\r\n"
def relayDenied : String := "550 5.7.1 Relaying not allowed\r\n"
def recipientOk : String := "250 2.1.5 Recipient OK\r\n"
def rcptSyntaxError : String := "501 5.5.4 Syntax error in RCPT command\r\n"
def defaultMaxRecipients : ℕ := 100

inductive Recipient
  | localTo
  | localUnknown
  | remote
  deriving DecidableEq

inductive RcptOutcome
  | reject (reply : String)
  | accept (address reply : String)
  deriving DecidableEq

def rcptReply (params : RcptParams) (senderPending : Bool) (recipient : Recipient)
    (authenticated : Bool) (acceptedCount maxRecipients : ℕ) : RcptOutcome :=
  if !senderPending then .reject needMail
  else if 0 < maxRecipients ∧ maxRecipients ≤ acceptedCount then .reject tooManyRecipients
  else
    match recipient with
    | .localTo => .accept params.address recipientOk
    | .localUnknown => .reject noMailbox
    | .remote =>
      if authenticated then .accept params.address recipientOk else .reject relayDenied

/-! ## DATA and BDAT -/

def dataNeedsRcpt : String := "503 5.5.1 Need RCPT before DATA\r\n"
def dataReady : String := "354 Start mail input; end with <CRLF>.<CRLF>\r\n"
def acceptedReply : String := "250 2.0.0 Message accepted\r\n"
def mailboxFullReply : String := "452 4.2.2 Mailbox full, try again later\r\n"

inductive DataOutcome
  | reject (reply : String)
  | ready (reply : String)
  deriving DecidableEq

def dataReply (hasRecipient : Bool) : DataOutcome :=
  if hasRecipient then .ready dataReady else .reject dataNeedsRcpt

def bdatNeedsRcpt : String := "503 5.5.1 Need RCPT before BDAT\r\n"
def chunkOkReply : String := "250 2.6.0 Chunk accepted\r\n"
def bdatSyntaxError : String := "501 5.5.4 Syntax error in BDAT command\r\n"

inductive BdatOutcome
  | reject (reply : String)
  | tooLarge (reply : String)
  | receive (chunkSize : ℕ) (isLast : Bool)
  deriving DecidableEq

def bdatReply (hasRecipient : Bool) (chunkSize accumulated maxSize : ℕ) (isLast : Bool) :
    BdatOutcome :=
  if !hasRecipient then .reject bdatNeedsRcpt
  else if 0 < maxSize ∧ maxSize < saturatingAdd accumulated chunkSize then .tooLarge tooLargeReply
  else .receive chunkSize isLast

inductive ChunkDisposal
  | drain (count : ℕ)
  | close
  deriving DecidableEq

def chunkDisposal (chunkSize maxSize : ℕ) : ChunkDisposal :=
  if 0 < maxSize ∧ maxSize < chunkSize then .close else .drain chunkSize

/-! ## Other commands -/

def starttlsReady : String := "220 2.0.0 Ready to start TLS\r\n"
def alreadySecure : String := "503 5.5.1 TLS already active\r\n"
def tlsNotAvailable : String := "454 4.7.0 TLS not available\r\n"

inductive StartTlsReply
  | ready
  | alreadySecure
  | notAvailable
  deriving DecidableEq

def StartTlsReply.bytes : StartTlsReply → String
  | ready => starttlsReady
  | alreadySecure => Smtp.alreadySecure
  | notAvailable => tlsNotAvailable

def StartTlsReply.upgrades (reply : StartTlsReply) : Bool := reply = .ready

def starttlsReply (isTls hasAcceptor : Bool) : StartTlsReply :=
  if isTls then .alreadySecure else if !hasAcceptor then .notAvailable else .ready

def rsetReply : String := "250 2.0.0 Reset OK\r\n"
def noopReply : String := "250 2.0.0 OK\r\n"
def quitReply : String := "221 2.0.0 Bye\r\n"
def unrecognized : String := "500 5.5.2 Command unrecognized\r\n"

/-! ## Submission -/

def authRequired : String := "530 5.7.0 Authentication required\r\n"
def fromNotOwned : String := "550 5.7.1 Sender address not owned by the authenticated account\r\n"

inductive Gate
  | proceed
  | reject (reply : String)
  deriving DecidableEq

def guardSubmission (authenticated : Bool) : Gate :=
  if authenticated then .proceed else .reject authRequired

def guardFrom (declared : String) (owned : List String) : Gate :=
  if declared = "" then .proceed
  else if owned.any fun address => eqIgnoreAsciiCase address declared then .proceed
  else .reject fromNotOwned

/-! ## AUTH -/

def encryptionRequired : String := "530 5.7.0 Must issue a STARTTLS command first\r\n"
def alreadyAuthenticated : String := "503 5.5.1 Already authenticated\r\n"
def unsupportedMechanism : String := "504 5.5.4 Unsupported authentication mechanism\r\n"
def invalidChallenge : String := "501 5.5.2 Invalid authentication challenge\r\n"
def credentialsInvalidReply : String := "535 5.7.8 Authentication credentials invalid\r\n"
def successReply : String := "235 2.7.0 Authentication successful\r\n"
def tooManyAttemptsReply : String := "454 4.7.0 Too many failed authentication attempts\r\n"
def challengeUsername : String := "334 VXNlcm5hbWU6\r\n"
def challengePassword : String := "334 UGFzc3dvcmQ6\r\n"
def challengeEmpty : String := "334 \r\n"
def authCancelled : String := "501 5.5.2 Authentication cancelled\r\n"
def authSyntaxError : String := "501 5.5.4 Syntax error in AUTH command\r\n"
def closedDuringAuth : Error := .protocol "connection closed during AUTH"

structure Credentials where
  authcid : String
  password : String
  deriving DecidableEq

inductive SaslStep
  | challenge (bytes : String)
  | resolved (credentials : Credentials)
  | reply (bytes : String)
  deriving DecidableEq

inductive SaslExchange
  | plainAwaitingResponse
  | loginAwaitingUsername
  | loginAwaitingPassword (username : String)
  deriving DecidableEq

/-- `splitn(3, 0)`, when there are three parts and no NUL in the last. -/
def decodePlain (payload : Bytes) : Option Credentials :=
  match payload.dropWhile (· != 0) with
  | [] => none
  | _ :: rest =>
    match rest.dropWhile (· != 0) with
    | [] => none
    | _ :: password =>
      if 0 ∈ password then none
      else do
        let authcid ← fromUtf8 (rest.takeWhile (· != 0))
        let password ← fromUtf8 password
        pure ⟨authcid, password⟩

def SaslExchange.advance (exchange : SaslExchange) (response : String) : SaslStep × SaslExchange :=
  match lib.decodeBase64 (trim response) with
  | none => (.reply invalidChallenge, exchange)
  | some decoded =>
    match exchange with
    | plainAwaitingResponse =>
      match decodePlain decoded with
      | some credentials => (.resolved credentials, plainAwaitingResponse)
      | none => (.reply invalidChallenge, plainAwaitingResponse)
    | loginAwaitingUsername =>
      match fromUtf8 decoded with
      | some username => (.challenge challengePassword, loginAwaitingPassword username)
      | none => (.reply invalidChallenge, plainAwaitingResponse)
    | loginAwaitingPassword username =>
      match fromUtf8 decoded with
      | some password => (.resolved ⟨username, password⟩, plainAwaitingResponse)
      | none => (.reply invalidChallenge, plainAwaitingResponse)

def SaslExchange.start (exchange : SaslExchange) (challenge initialResponse : String) :
    SaslStep × SaslExchange :=
  if initialResponse = "" then (.challenge challenge, exchange)
  else exchange.advance lib initialResponse

def SaslExchange.begin (mechanism : AuthMechanism) (isTls authenticated : Bool)
    (initialResponse : String) : SaslStep × SaslExchange :=
  if authenticated then (.reply alreadyAuthenticated, plainAwaitingResponse)
  else if !isTls then (.reply encryptionRequired, plainAwaitingResponse)
  else
    match mechanism with
    | .plain => plainAwaitingResponse.start lib challengeEmpty initialResponse
    | .login => loginAwaitingUsername.start lib challengeUsername initialResponse
    | .unsupported => (.reply unsupportedMechanism, plainAwaitingResponse)

inductive LoginAttempt
  | granted (account : Account)
  | denied
  | throttled
  deriving DecidableEq

end IrixMail.Smtp
