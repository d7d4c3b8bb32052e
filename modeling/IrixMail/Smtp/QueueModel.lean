import IrixMail.Mail.MessageData

/-! The records of the outbound queue. -/

namespace IrixMail.Smtp
open Mail (BlobHash)

inductive RecipientStatus
  | scheduled
  | delivered
  | deferred (reason : String)
  | bounced (reason : String)
  deriving DecidableEq

def RecipientStatus.isPending : RecipientStatus → Bool
  | .scheduled => true
  | .deferred _ => true
  | .delivered => false
  | .bounced _ => false

def RecipientStatus.isSettled (s : RecipientStatus) : Bool := !s.isPending

def RecipientStatus.isBounced : RecipientStatus → Bool
  | .bounced _ => true
  | _ => false

structure RetrySchedule where
  attempts : ℕ
  due : ℕ
  deriving DecidableEq

def RetrySchedule.first (due : ℕ) : RetrySchedule := ⟨0, due⟩
def RetrySchedule.isDue (r : RetrySchedule) (now : ℕ) : Bool := decide (r.due ≤ now)

structure NotifySchedule where
  sent : ℕ
  due : ℕ
  deriving DecidableEq

def NotifySchedule.first (due : ℕ) : NotifySchedule := ⟨0, due⟩

inductive Expiry
  | at (deadline : ℕ)
  | attempts (limit : ℕ)
  deriving DecidableEq

def Expiry.isExpired (e : Expiry) (attempts now : ℕ) : Bool :=
  match e with
  | .at deadline => decide (deadline ≤ now)
  | .attempts limit => decide (limit ≤ attempts)

structure QueueRecipient where
  address : String
  status : RecipientStatus
  retry : RetrySchedule
  notify : NotifySchedule
  expiry : Expiry
  deriving DecidableEq

namespace QueueRecipient

def new (address : String) (due : ℕ) (expiry : Expiry) : QueueRecipient :=
  ⟨address, .scheduled, .first due, .first due, expiry⟩

def isDue (r : QueueRecipient) (now : ℕ) : Bool := r.status.isPending && r.retry.isDue now

end QueueRecipient

structure QueuedMessage where
  created : ℕ
  blobHash : BlobHash
  size : ℕ
  returnPath : String
  recipients : List QueueRecipient
  deriving DecidableEq

namespace QueuedMessage

def isComplete (m : QueuedMessage) : Bool := m.recipients.all fun r => r.status.isSettled

def hasDueRecipient (m : QueuedMessage) (now : ℕ) : Bool := m.recipients.any fun r => r.isDue now

end QueuedMessage

/-! ## Attempts -/

inductive DeliveryAttempt
  | delivered
  | deferred (reason : String)
  | bounced (reason : String)
  deriving DecidableEq

def DeliveryAttempt.isDelivered : DeliveryAttempt → Bool
  | delivered => true
  | _ => false

/-- How the way out answers: the relay or the mail exchanges took or refused the
message, or there was no exchange to talk to. -/
inductive NetworkReply
  | answered (attempt : DeliveryAttempt)
  | noMailAccepted
  | unresolvable
  | lookupFailed (err : String)
  deriving DecidableEq

def NetworkReply.attempt : NetworkReply → DeliveryAttempt
  | answered attempt => attempt
  | noMailAccepted => .bounced "the destination domain does not accept mail"
  | unresolvable => .deferred "no reachable mail exchange"
  | lookupFailed err => .deferred ("MX resolution failed: " ++ err)

structure RecipientRef where
  queueId : ℕ
  index : ℕ
  deriving DecidableEq

end IrixMail.Smtp
