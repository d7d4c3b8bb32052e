import IrixMail.Smtp.DeliverHook
import IrixMail.Smtp.Headers

/-!
# An SMTP session

A session reads command lines and carries them out one after the other. What it
asks of services outside the store (logins, the greylist, the rate limiter, the
sender checks, the signer) it asks at most once for a line, so that for every
line the answers are given beforehand.

`receive` does all that a line asks for but for handing over a complete message;
`dispatch` also does that.
-/

namespace IrixMail.Smtp
open Library Prog Store Mail Directory

/-! ## State -/

inductive Stage
  | connected
  | greeted
  | mail
  | rcpt
  deriving DecidableEq

inductive SmtpMode
  | inbound
  | submission
  deriving DecidableEq

inductive Flow
  | close
  | upgrade
  deriving DecidableEq

inductive DnsblDecision
  | allow
  | reject (zone : String)
  deriving DecidableEq

structure SessionData where
  heloDomain : String := ""
  mailFrom : Option String := none
  smtputf8 : Bool := false
  rcptTo : List String := []
  isTls : Bool := false
  authenticated : Bool := false
  deriving DecidableEq

def SessionData.resetTransaction (data : SessionData) : SessionData :=
  { data with mailFrom := none, smtputf8 := false, rcptTo := [] }

/-- What is handed over at the end of a message. -/
structure Message where
  mailFrom : Option String
  rcptTo : List String
  body : Bytes
  deriving DecidableEq

structure InboundServices where
  mail : Services
  hostDomain : String

inductive SessionServices
  | inbound (services : InboundServices)
  | submission

structure Session where
  wire : Wire
  peer : String := ""
  stage : Stage := .connected
  data : SessionData := {}
  accepted : Option Message := none
  localDomains : List String := []
  chunks : Option ChunkReceiver := none
  mode : SmtpMode := .inbound
  services : Option SessionServices := none
  dnsbl : DnsblDecision := .allow
  account : Option Account := none
  starttlsUpgrade : Bool := false

namespace Session

def inboundServices (s : Session) : Option InboundServices :=
  match s.services with
  | some (.inbound services) => some services
  | _ => none

def hasDirectory (s : Session) : Bool := s.services.isSome

/-- Both the stage and the data go back to before `MAIL`. -/
def afterMessage (s : Session) : Session :=
  { s with data := s.data.resetTransaction, stage := .greeted }

def withIncoming (s : Session) (incoming : Bytes) : Session :=
  { s with wire := { s.wire with incoming := incoming } }

def brokenPipe : Error := .io "broken pipe"

def write (s : Session) (reply : String) : Except Error Session :=
  match s.wire.takes with
  | 0 => .error brokenPipe
  | n + 1 => .ok { s with wire := { s.wire with takes := n, sent := reply :: s.wire.sent } }

end Session

/-! ## Services outside the store -/

inductive DmarcAction
  | pass
  | quarantine
  | reject
  deriving DecidableEq

/-- What the checks of a sender come to. -/
structure Verification where
  action : DmarcAction
  tempError : Bool
  authResults : String
  deriving DecidableEq

structure Answers where
  login : Credentials → Except Error LoginAttempt
  greylistDefers : String → String → Bool → Bool
  tooManyMessages : Bool
  verification : String → String → Bytes → Verification
  signer : String → Option (Bytes → Except Error Bytes)

def Answers.plain : Answers where
  login _ := .ok .denied
  greylistDefers _ _ _ := false
  tooManyMessages := false
  verification _ _ _ := ⟨.pass, false, ""⟩
  signer _ := none

inductive Disposition
  | inbox
  | spam
  deriving DecidableEq

inductive SpamDecision
  | accept (disposition : Disposition)
  | defer (reply : String)
  | reject (reply : String)
  deriving DecidableEq

def policyRejected : String := "550 5.7.1 Message rejected by sender policy\r\n"
def policyDeferred : String := "451 4.7.1 Message temporarily deferred, please retry\r\n"
def blocklisted : String :=
  "554 5.7.1 Connection refused, your address is on a public blocklist\r\n"
def tooManyConnectionsReply : String := "421 4.7.0 Too many connections, try again later\r\n"
def tooManyMessagesReply : String := "452 4.7.0 Too many messages, try again later\r\n"
def greylisted : String := "452 4.2.2 Greylisted, please retry in a few moments\r\n"
def unroutable : String := "550 5.1.1 Mailbox unavailable\r\n"
def submissionTempfailReply : String :=
  "451 4.3.0 Unable to accept the message right now, try again later\r\n"

def decideSpam (v : Verification) : DnsblDecision → SpamDecision
  | .reject _ => .reject blocklisted
  | .allow =>
    match v.action with
    | .reject => if v.tempError then .defer policyDeferred else .reject policyRejected
    | .quarantine => .accept .spam
    | .pass => .accept .inbox

def runGauntlet (v : Verification) (raw : Bytes) (dnsbl : DnsblDecision) : SpamDecision :=
  if isLooping raw defaultMaxReceived then .defer looping else decideSpam v dnsbl

/-! ## Who may send, and to whom -/

namespace Session
variable (s : Session)

def submissionGate : Option String :=
  if s.mode ≠ .submission then none
  else
    match guardSubmission s.data.authenticated with
    | .proceed => none
    | .reject reply => some reply

def ownedAddresses : Action (List String) :=
  match s.account with
  | none => pure []
  | some account =>
    if s.hasDirectory then do
      match ← caught (DomainRegistry.get account.domainId) with
      | .ok domain => pure ((account.localPart ++ "@" ++ domain.name) :: account.aliases)
      | .error _ => pure account.aliases
    else pure account.aliases

def checkSender (declared : String) : Action Gate :=
  if s.mode ≠ .submission then pure .proceed
  else do
    let owned ← s.ownedAddresses
    pure (guardFrom declared owned)

def domainPart (address : String) : Option String :=
  match rsplitOnce '@' address with
  | some (_, domain) => if domain = "" then none else some (toAsciiLowercase domain)
  | none => none

def isRemote (localDomains : List String) (address : String) : Bool :=
  match domainPart address with
  | some domain => !localDomains.contains domain
  | none => !eqIgnoreAsciiCase (trim address) "postmaster"

def classifyRecipient (address : String) : Action Recipient :=
  if isRemote s.localDomains address then pure .remote
  else if !s.hasDirectory then pure .localTo
  else do
    match ← caught (resolve address) with
    | .ok resolution => pure (if resolution.isAccepted then .localTo else .localUnknown)
    | .error _ => pure .localUnknown

end Session

/-! ## The reply to a complete message -/

section Inbound
variable (services : InboundServices) (mailFrom : String) (raw : Bytes) (receivedAt : ℕ)

structure Prepared where
  account : Account
  recipient : String
  mailboxes : List Mailbox
  script : Option Script
  documentId : ℕ

def prepareLocal (account : Account) (recipient : String) : Action Prepared := do
  let script ← activeScript services.mail account.id
  let mailboxes ← mailboxesOf account
  let documentId ← nextDocumentId account
  pure ⟨account, recipient, mailboxes, script, documentId⟩

def prepareRecipient (recipient : String) : Action (Option Prepared × ℕ) := do
  match ← resolve recipient with
  | .localTo accountId _ => do
    match ← caught (AccountRegistry.get accountId) with
    | .ok account => do
      let prepared ← prepareLocal services account recipient
      pure (some prepared, 0)
    | .error _ => pure (none, 0)
  | .forward destination => do
    match ← caught (enqueueForward mailFrom destination raw receivedAt) with
    | .ok _ => pure (none, 1)
    | .error _ => pure (none, 0)
  | _ => pure (none, 0)

def prepareRecipients : List String → Action (List Prepared × ℕ)
  | [] => pure ([], 0)
  | recipient :: rest => do
    let (prepared, forwarded) ← prepareRecipient services mailFrom raw receivedAt recipient
    let (others, more) ← prepareRecipients rest
    pure (prepared.toList ++ others, forwarded + more)

def targetOverride : Disposition → Option DeliveryTarget
  | .spam => some (.role .junk)
  | .inbox => none

def Prepared.request (disposition : Disposition) (p : Prepared) : DeliveryRequest where
  account := p.account
  mailboxes := p.mailboxes
  sieve := p.script
  mailFrom := mailFrom
  recipient := p.recipient
  documentId := p.documentId
  raw := raw
  targetOverride := targetOverride disposition
  receivedAt := receivedAt

def followUp (disposition : Disposition) (recipients : List Prepared) (outcome : InboundOutcome) :
    Action Unit := do
  enqueueRelays outcome
  bounceOverQuota services.mail (recipients.map Prepared.recipient) outcome mailFrom raw receivedAt
  if disposition ≠ .spam then
    respondVacations services.mail mailFrom raw receivedAt
      ((recipients.map fun p => (p.account, p.recipient)).zip outcome.deliveries)
  else pure ()

def refusedEverywhere (outcome : InboundOutcome) : Bool :=
  outcome.deliveries.all fun delivery => delivery.isOverQuota && delivery.relays.isEmpty

def deliverPrepared (disposition : Disposition) (recipients : List Prepared) (forwarded : ℕ) :
    Action (Option String) :=
  if recipients.isEmpty then pure (if 0 < forwarded then none else some unroutable)
  else do
    let outcome ← deliverInbound services.mail
      (recipients.map (Prepared.request mailFrom raw receivedAt disposition))
    if refusedEverywhere outcome && forwarded == 0 then pure (some mailboxFullReply)
    else do
      followUp services mailFrom raw receivedAt disposition recipients outcome
      pure none

def Session.deliverInbound (rcptTo : List String) (disposition : Disposition) :
    Action (Option String) := do
  let receivedAt ← exec .now
  let (recipients, forwarded) ← prepareRecipients services mailFrom raw receivedAt rcptTo
  deliverPrepared services mailFrom raw receivedAt disposition recipients forwarded

end Inbound

section Accept
variable (lib : Libraries) (answers : Answers)

def Session.acceptInbound (message : Message) (s : Session) : Action (String × Session) :=
  match s.inboundServices with
  | none => pure (acceptedReply, { s with accepted := some message })
  | some services =>
    if answers.tooManyMessages then pure (tooManyMessagesReply, s)
    else
      let mailFrom := message.mailFrom.getD ""
      let v := answers.verification s.data.heloDomain mailFrom message.body
      let cleared := { s with dnsbl := .allow }
      match runGauntlet v message.body s.dnsbl with
      | .defer reply => pure (reply, cleared)
      | .reject reply => pure (reply, cleared)
      | .accept disposition => do
        let authed := prependHeader "Authentication-Results" v.authResults message.body
        let now ← exec .now
        let stamped := buildReceived s.data.heloDomain s.peer services.hostDomain s.data.isTls now now
          ++ authed
        match ← Session.deliverInbound services mailFrom stamped message.rcptTo disposition with
        | some reply => pure (reply, cleared)
        | none => pure (acceptedReply, { cleared with accepted := some { message with body := stamped } })

def signedBody (message : Message) (now : ℕ) : Except Error Bytes :=
  let domain := (fromDomain lib message.body).or (Session.domainPart (message.mailFrom.getD ""))
  let completed := completeHeaders message.body (domain.getD hostname) now
  match domain.bind answers.signer with
  | some sign => sign completed
  | none => .ok completed

def submissionRequest (message : Message) (now : ℕ) : Enqueue :=
  ⟨now, message.mailFrom.getD "",
    message.rcptTo.map fun address => (address, .at (saturatingAdd now defaultMaxAge)), now⟩

def Session.acceptSubmission (message : Message) (s : Session) : Action (String × Session) :=
  match s.services with
  | some .submission => do
    let now ← exec .now
    match signedBody lib answers message now with
    | .error _ => pure (submissionTempfailReply, s)
    | .ok signed => do
      let now ← exec .now
      match ← caught (enqueue signed (submissionRequest message now)) with
      | .error _ => pure (submissionTempfailReply, s)
      | .ok _ => pure (acceptedReply, { s with accepted := some { message with body := signed } })
  | _ => pure (acceptedReply, { s with accepted := some message })

def Session.acceptBody (message : Message) (s : Session) : Action (String × Session) :=
  match s.mode with
  | .submission => s.acceptSubmission lib answers message
  | .inbound => s.acceptInbound answers message

end Accept

end IrixMail.Smtp
