import IrixMail.Store.World

/-!
# The outbound queue

A queued message is a body in the blob store and a record that names it. The
body is put first; nothing but the record refers to it. Queue ids are drawn from
a counter.
-/

namespace IrixMail.Smtp
open Library Prog Store Mail

/-! ## Retries -/

def baseBackoff : ℕ := 300
def maxBackoff : ℕ := 7200
def maxShift : ℕ := 16

inductive RetryDecision
  | retry (schedule : RetrySchedule)
  | bounce
  deriving DecidableEq

def backoff (attempts : ℕ) : ℕ := min (baseBackoff * 2 ^ min attempts maxShift) maxBackoff

def nextAfterDeferral (retry : RetrySchedule) (expiry : Expiry) (now : ℕ) : RetryDecision :=
  let attempts := min (retry.attempts + 1) (2 ^ 32 - 1)
  if expiry.isExpired attempts now then .bounce
  else .retry ⟨attempts, saturatingAdd now (backoff retry.attempts)⟩

/-! ## Records -/

structure Enqueue where
  created : ℕ
  returnPath : String
  recipients : List (String × Expiry)
  firstDue : ℕ

structure Enqueued where
  id : ℕ
  message : QueuedMessage

def queueIds : CounterLoc := .number 0 .emailSubmission 0

def allocateId : Action ℕ := do
  let next ← exec (.addAndGet queueIds 1)
  pure (intAsU32 next)

def Enqueue.messageOf (request : Enqueue) (raw : Bytes) (hash : BlobHash) : QueuedMessage where
  created := request.created
  blobHash := hash
  size := raw.length
  returnPath := request.returnPath
  recipients := request.recipients.map fun r => .new r.1 request.firstDue r.2

def enqueue (raw : Bytes) (request : Enqueue) : Action Enqueued := do
  let hash ← exec (.blobPut raw)
  let id ← allocateId
  let message := request.messageOf raw hash
  exec (.put (.queue id) message)
  pure ⟨id, message⟩

def load (id : ℕ) : Action (Option QueuedMessage) := exec (.get (.queue id))
def persist (id : ℕ) (message : QueuedMessage) : Action Unit := exec (.put (.queue id) message)
def remove (id : ℕ) : Action Unit := exec (.delete (.queue id))

def QueueRecipient.hasten (now : ℕ) (rcpt : QueueRecipient) : QueueRecipient :=
  if rcpt.status.isPending then { rcpt with retry := { rcpt.retry with due := now } } else rcpt

def retryNow (id now : ℕ) : Action Bool := do
  match ← load id with
  | none => pure false
  | some message => do
    persist id { message with recipients := message.recipients.map (·.hasten now) }
    pure true

/-! ## What is due -/

structure DueMessage where
  id : ℕ
  message : QueuedMessage
  deriving DecidableEq

structure DueBatch where
  messages : List DueMessage
  nextDue : Option ℕ
  deriving DecidableEq

def QueuedMessage.nextDue (m : QueuedMessage) : Option ℕ :=
  ((m.recipients.filter fun r => r.status.isPending).map fun r => r.retry.due).min?

def DueBatch.add (now : ℕ) (batch : DueBatch) : Sigma Val → DueBatch
  | ⟨.queue id, message⟩ =>
    if message.isComplete then batch
    else if message.hasDueRecipient now then
      { batch with messages := batch.messages ++ [⟨id, message⟩] }
    else
      match message.nextDue with
      | none => batch
      | some due => { batch with nextDue := some (batch.nextDue.elim due (min · due)) }
  | _ => batch

def scanDue (now : ℕ) : Action DueBatch := do
  let rows ← exec (.iterate ⟨.queue, none, none⟩)
  pure (rows.foldl (DueBatch.add now) ⟨[], none⟩)

end IrixMail.Smtp
