import IrixMail.Mail.Deliver
import IrixMail.Mail.Resolve
import IrixMail.Mail.Vacation
import IrixMail.Smtp.Dsn
import IrixMail.Smtp.Queue

/-!
# Around a delivery

What follows the filing of a message: the copies it sends on are queued, those
over quota are reported to the sender, and absent recipients answer. A copy that
cannot be queued is only logged.
-/

namespace IrixMail.Smtp
open Library Prog Store Mail Directory

/-- The mail services: what the message libraries and the Sieve compiler do,
and the name of this host. -/
structure Services extends Env where
  compile : StoredScript → Option Script
  hostname : Option String

def Services.plain : Services := { Env.plain with compile := fun _ => none, hostname := none }

structure InboundOutcome where
  deliveries : List DeliveryOutcome
  dailyTotal : ℤ

def relayMaxAttempts : ℕ := 25
def defaultMaxAge : ℕ := 5 * 86400
def overQuotaReason : String := "552 5.2.2 Mailbox full"
def reportingMta : String := "irixmail"

def dayNumber (secondsSinceEpoch : ℕ) : ℕ := asU32 (secondsSinceEpoch / 86400)

def recordInbound (secondsSinceEpoch : ℕ) : Action ℤ :=
  exec (.addAndGet (.inbound (dayNumber secondsSinceEpoch)) 1)

variable (svc : Services)

def compileActiveScript (scripts : List StoredScript) : Option Script :=
  (scripts.find? fun script => script.active).bind svc.compile

def activeScript (accountId : ℕ) : Action (Option Script) := do
  match ← caught (SieveScriptRegistry.list accountId) with
  | .ok scripts => pure (compileActiveScript svc scripts)
  | .error _ => pure none

def mailboxesOf (account : Account) : Action (List Mailbox) := do
  let mailboxes ← loadMailboxes account.mailId
  pure (if mailboxes.isEmpty then provisionMailboxes account.createdAt else mailboxes)

def nextDocumentId (account : Account) : Action ℕ := do
  let next ← exec (.addAndGet (.number account.mailId .email 0) 1)
  pure (intAsU32 next)

def deliverEach : List DeliveryRequest → Action (List DeliveryOutcome)
  | [] => pure []
  | request :: rest => do
    let outcome ← deliver svc.toEnv request
    let outcomes ← deliverEach rest
    pure (outcome :: outcomes)

def deliverInbound (requests : List DeliveryRequest) : Action InboundOutcome := do
  let deliveries ← deliverEach svc requests
  let now ← exec .now
  let dailyTotal ← recordInbound now
  pure ⟨deliveries, dailyTotal⟩

def relayRequest (now : ℕ) (relay : ForwardRelay) : Enqueue :=
  ⟨now, relay.mailFrom, [(relay.rcptTo, .attempts relayMaxAttempts)], now⟩

def enqueueEach (now : ℕ) : List ForwardRelay → Action Unit
  | [] => pure ()
  | relay :: rest => do
    let _ ← caught (enqueue relay.message (relayRequest now relay))
    enqueueEach now rest

def enqueueRelays (outcome : InboundOutcome) : Action Unit := do
  let now ← exec .now
  enqueueEach now (outcome.deliveries.flatMap DeliveryOutcome.relays)

def enqueueForward (mailFrom destination : String) (raw : Bytes) (now : ℕ) : Action Unit := do
  let _ ← enqueue raw ⟨now, mailFrom, [(destination, .attempts relayMaxAttempts)], now⟩
  pure ()

def overQuotaRecipient (now : ℕ) (address : String) : QueueRecipient :=
  { QueueRecipient.new address now (.attempts 1) with status := .bounced overQuotaReason }

def overQuotaReport (recipients : List String) (outcome : InboundOutcome) (mailFrom : String)
    (raw : Bytes) (now : ℕ) : QueuedMessage where
  created := now
  blobHash := []
  size := raw.length
  returnPath := mailFrom
  recipients := ((recipients.zip outcome.deliveries).filter fun x => x.2.isOverQuota).map
    fun x => overQuotaRecipient now x.1

def bounceOverQuota (recipients : List String) (outcome : InboundOutcome) (mailFrom : String)
    (raw : Bytes) (now : ℕ) : Action Unit :=
  if mailFrom = "" then pure ()
  else
    match buildDsn svc.toEnv (overQuotaReport recipients outcome mailFrom raw now)
      (svc.hostname.getD reportingMta) raw now with
    | none => pure ()
    | some dsn => do
      let _ ← caught (enqueue dsn
        ⟨now, "", [(mailFrom, .at (saturatingAdd now defaultMaxAge))], now⟩)
      pure ()

def vacationConfig (account : Account) : VacationConfig where
  enabled := true
  start := account.vacation.activeFrom
  finish := account.vacation.activeTo
  periodSeconds := defaultPeriodSeconds
  subject := if account.vacation.subject = "" then none else some account.vacation.subject
  body := account.vacation.body

def sendVacationReply (accountId : ℕ) (reply : VacationReply) (now : ℕ) : Action Unit := do
  match ← caught (enqueue reply.message
      ⟨now, "", [(reply.recipient, .attempts relayMaxAttempts)], now⟩) with
  | .ok _ => do
    let _ ← caught (recordVacationReply accountId reply.recipient reply.sentAt)
    pure ()
  | .error _ => pure ()

def respondVacation (account : Account) (recipient mailFrom : String) (raw : Bytes) (now : ℕ) :
    Action Unit := do
  match ← caught (lastVacationReply account.id mailFrom) with
  | .error _ => pure ()
  | .ok last =>
    match evaluateVacation svc.toEnv (vacationConfig account) raw mailFrom recipient now last with
    | .error .panicked => .fail .panicked
    | .error _ => pure ()
    | .ok (.suppress _) => pure ()
    | .ok (.reply reply) => sendVacationReply account.id reply now

def respondVacations (mailFrom : String) (raw : Bytes) (now : ℕ) :
    List ((Account × String) × DeliveryOutcome) → Action Unit
  | [] => pure ()
  | ((account, recipient), delivery) :: rest => do
    if delivery.isOverQuota || !account.vacation.enabled then
      respondVacations mailFrom raw now rest
    else do
      respondVacation svc account recipient mailFrom raw now
      respondVacations mailFrom raw now rest

end IrixMail.Smtp
