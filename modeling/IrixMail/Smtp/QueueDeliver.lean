import IrixMail.Smtp.DeliverHook

/-!
# Queue passes

A pass takes the messages that the scan found due, one after another. Each
recipient that is due is tried: addresses of hosted domains are delivered here,
the others go out. What became of the recipients is written back, or the record
is removed when nothing is left to do. A message whose pass fails stays queued.
-/

namespace IrixMail.Smtp
open Library Prog Store Mail Directory

/-! ## The rate limiter -/

inductive Axis
  | sender
  | domain
  deriving DecidableEq

structure OutboundLimits where
  maxPerSender : ℕ := 500
  maxPerDomain : ℕ := 2000
  window : ℕ := 3600

def OutboundLimits.isDisabled (limits : OutboundLimits) : Bool :=
  limits.window = 0 ∨ limits.maxPerSender = 0 ∧ limits.maxPerDomain = 0

inductive OutboundDecision
  | allow
  | deny (axis : Axis)
  deriving DecidableEq

/-- What is stored of the current window. -/
abbrev RateCounts := Axis → String → ℕ

namespace OutboundLimits
variable (counts : RateCounts)

def isOver (axis : Axis) (identity : String) (limit : ℕ) : Bool :=
  limit ≠ 0 ∧ limit ≤ counts axis identity

def record (axis : Axis) (identity : String) (limit : ℕ) : RateCounts :=
  if limit = 0 then counts
  else Function.update counts axis
    (Function.update (counts axis) identity (counts axis identity + 1))

def domainOf (sender : String) : String := ((rsplitOnce '@' sender).map Prod.snd).getD ""

def check (limits : OutboundLimits) (sender : String) : OutboundDecision × RateCounts :=
  if limits.isDisabled then (.allow, counts)
  else
    let sender := toAsciiLowercase sender
    let domain := domainOf sender
    if isOver counts .sender sender limits.maxPerSender then (.deny .sender, counts)
    else if isOver counts .domain domain limits.maxPerDomain then (.deny .domain, counts)
    else (.allow, record (record counts .sender sender limits.maxPerSender) .domain domain
      limits.maxPerDomain)

end OutboundLimits

/-- The outbound side: with or without local delivery, and with the limits. What has been
counted is found in a store that is shared with other passes: `rateCounters id` is what the
check of that message finds. -/
structure OutboundDelivery where
  services : Services
  hostname : Option String
  isLocal : Bool
  limits : OutboundLimits
  rateCounters : ℕ → RateCounts

def OutboundDelivery.plain : OutboundDelivery := ⟨.plain, none, false, {}, fun _ _ _ => 0⟩

def OutboundDelivery.isAllowed (out : OutboundDelivery) (id : ℕ) (sender : String) : Bool :=
  (out.limits.check (out.rateCounters id) sender).1 = .allow

/-! ## Local routes -/

inductive LocalRoute
  | deliver (accountId : ℕ)
  | redirect (destination : String)
  | unknown
  | remote
  deriving DecidableEq

def hostedDomains : Action (List String) := do
  match ← caught DomainRegistry.list with
  | .ok domains => pure (domains.flatMap fun d => (d.name :: d.aliases).map toAsciiLowercase)
  | .error _ => pure []

def isHosted (hosted : List String) (address : String) : Bool :=
  match rsplitOnce '@' address with
  | some (_, domain) => domain != "" && hosted.contains (toAsciiLowercase domain)
  | none => false

def routeOf : Resolution → LocalRoute
  | .localTo accountId _ => .deliver accountId
  | .forward destination => .redirect destination
  | .rejected => .unknown
  | .unknown => .unknown

def route (hosted : List String) (address : String) : Action LocalRoute :=
  if !isHosted hosted address then pure .remote
  else do
    let resolution ← resolve address
    pure (routeOf resolution)

def fileLocally (svc : Services) (accountId : ℕ) (mailFrom recipient : String) (raw : Bytes)
    (now : ℕ) : Action DeliveryAttempt := do
  let account ← AccountRegistry.get accountId
  let script ← activeScript svc account.id
  let mailboxes ← mailboxesOf account
  let documentId ← nextDocumentId account
  let outcome ← deliverInbound svc
    [⟨account, mailboxes, script, mailFrom, recipient, documentId, raw, none, now⟩]
  if outcome.deliveries.any DeliveryOutcome.isOverQuota then pure (.bounced overQuotaReason)
  else do
    enqueueRelays outcome
    respondVacations svc mailFrom raw now ([(account, recipient)].zip outcome.deliveries)
    pure .delivered

def deliverLocal (svc : Services) (accountId : ℕ) (mailFrom recipient : String) (raw : Bytes)
    (now : ℕ) : Action DeliveryAttempt := do
  match ← caught (fileLocally svc accountId mailFrom recipient raw now) with
  | .ok attempt => pure attempt
  | .error err => pure (.deferred ("local delivery failed: " ++ err.message))

/-! ## One recipient -/

def recordOutbound (secondsSinceEpoch : ℕ) : Action ℤ :=
  exec (.addAndGet (.outbound (dayNumber secondsSinceEpoch)) 1)

def applyAttempt (rcpt : QueueRecipient) (attempt : DeliveryAttempt) (now : ℕ) : QueueRecipient :=
  match attempt with
  | .delivered => { rcpt with status := .delivered }
  | .bounced reason => { rcpt with status := .bounced reason }
  | .deferred reason =>
    match nextAfterDeferral rcpt.retry rcpt.expiry now with
    | .retry schedule => { rcpt with retry := schedule, status := .deferred reason }
    | .bounce => { rcpt with status := .bounced reason }

/-- Follow local routes, with at most one redirect: the address that is left,
and the attempt when one was made here. -/
def followRoutes (svc : Services) (hosted : List String) (mailFrom : String) (raw : Bytes)
    (now : ℕ) : ℕ → String → Action (String × Option DeliveryAttempt)
  | 0, target => pure (target, none)
  | hops + 1, target => do
    match ← caught (route hosted target) with
    | .ok (.deliver accountId) => do
      let attempt ← deliverLocal svc accountId mailFrom target raw now
      pure (target, some attempt)
    | .ok (.redirect destination) => followRoutes svc hosted mailFrom raw now hops destination
    | .ok .unknown => pure (target, some (.bounced
        ("550 5.1.1 <" ++ target ++ ">: recipient address rejected: user unknown")))
    | .ok .remote => pure (target, none)
    | .error err => pure (target, some (.deferred ("local routing failed: " ++ err.message)))

variable (out : OutboundDelivery)

def attemptDelivery (rcpt : RecipientRef) (target : String) (here : Option DeliveryAttempt) :
    Action DeliveryAttempt :=
  .call (.attempt rcpt target here) fun
    | .ok attempt => .ret attempt
    | .error _ => .ret (.deferred "")

def attemptHere (hosted : Option (List String)) (returnPath : String) (raw : Bytes) (now : ℕ)
    (address : String) : Action (String × Option DeliveryAttempt) :=
  match hosted with
  | some hosted => followRoutes out.services hosted returnPath raw now 2 address
  | none => pure (address, none)

def attemptRecipient (ref : RecipientRef) (hosted : Option (List String)) (returnPath : String)
    (raw : Bytes) (now : ℕ) (rcpt : QueueRecipient) : Action QueueRecipient := do
  let (target, here) ← attemptHere out hosted returnPath raw now rcpt.address
  let attempt ← attemptDelivery ref target here
  if attempt.isDelivered then do
    let _ ← caught (recordOutbound now)
    pure (applyAttempt rcpt attempt now)
  else pure (applyAttempt rcpt attempt now)

def attemptIfDue (ref : RecipientRef) (hosted : Option (List String)) (returnPath : String)
    (raw : Bytes) (now : ℕ) (rcpt : QueueRecipient) : Action QueueRecipient :=
  if rcpt.isDue now then attemptRecipient out ref hosted returnPath raw now rcpt else pure rcpt

def attemptRecipients (id : ℕ) (hosted : Option (List String)) (returnPath : String) (raw : Bytes)
    (now : ℕ) : ℕ → List QueueRecipient → Action (List QueueRecipient)
  | _, [] => pure []
  | i, rcpt :: rest => do
    let tried ← attemptIfDue out ⟨id, i⟩ hosted returnPath raw now rcpt
    let others ← attemptRecipients id hosted returnPath raw now (i + 1) rest
    pure (tried :: others)

/-! ## One message -/

def commit (id : ℕ) (message : QueuedMessage) : Action Unit :=
  if message.isComplete then remove id else persist id message

def newlyBounced (message : QueuedMessage) (pendingBefore : List Bool) : List QueueRecipient :=
  ((message.recipients.zip pendingBefore).filter fun x => x.2 && x.1.status.isBounced).map Prod.fst

def raiseBounces (message : QueuedMessage) (pendingBefore : List Bool) (original : Bytes)
    (now : ℕ) : Action Unit :=
  let bounced := newlyBounced message pendingBefore
  if message.returnPath = "" ∨ bounced = [] then pure ()
  else
    match buildDsn out.services.toEnv { message with recipients := bounced }
      (out.hostname.getD reportingMta) original now with
    | none => pure ()
    | some dsn => do
      let _ ← enqueue dsn
        ⟨now, "", [(message.returnPath, .at (saturatingAdd now defaultMaxAge))], now⟩
      pure ()

def OutboundLimits.windowEnd (limits : OutboundLimits) (now : ℕ) : ℕ :=
  let window := max limits.window 1
  (now / window + 1) * window

def QueueRecipient.delay (now due : ℕ) (rcpt : QueueRecipient) : QueueRecipient :=
  if rcpt.isDue now then
    { rcpt with
      retry := { rcpt.retry with due := due }
      status := .deferred "outbound rate limited" }
  else rcpt

def QueueRecipient.loseBody (rcpt : QueueRecipient) : QueueRecipient :=
  if rcpt.status.isPending then
    { rcpt with status := .bounced "the message body is no longer available" }
  else rcpt

def listHosted : Action (Option (List String)) :=
  if out.isLocal then do
    let hosted ← hostedDomains
    pure (some hosted)
  else pure none

def processMessage (id : ℕ) (message : QueuedMessage) (now : ℕ) : Action Unit :=
  if message.hasDueRecipient now && !out.isAllowed id message.returnPath then
    let due := out.limits.windowEnd now
    commit id { message with recipients := message.recipients.map (·.delay now due) }
  else do
    let pendingBefore := message.recipients.map fun r => r.status.isPending
    match ← exec (.blobGet message.blobHash) with
    | none => do
      let message := { message with recipients := message.recipients.map (·.loseBody) }
      raiseBounces out message pendingBefore [] now
      commit id message
    | some raw => do
      let hosted ← listHosted out
      let recipients ← attemptRecipients out id hosted message.returnPath raw now 0
        message.recipients
      let message := { message with recipients := recipients }
      raiseBounces out message pendingBefore raw now
      commit id message

def process (now : ℕ) : List DueMessage → Action Unit
  | [] => pure ()
  | due :: rest => do
    let _ ← caught (processMessage out due.id due.message now)
    process now rest

def queuePass : Action Unit := do
  let now ← exec .now
  match ← caught (scanDue now) with
  | .ok batch => process out now batch.messages
  | .error _ => pure ()

end IrixMail.Smtp
