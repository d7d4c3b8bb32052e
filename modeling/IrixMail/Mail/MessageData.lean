import IrixMail.Core.Error

/-!
# Message records

The two records kept for a stored message: `MessageData`, which clients change
(mailboxes, keywords), and `MessageMetadata`, which is fixed at delivery and
names the body by its blob hash.
-/

namespace IrixMail.Mail

abbrev BlobHash := Bytes

structure MailboxUid where
  mailboxId : ℕ
  uid : ℕ
  deriving DecidableEq

inductive Keyword
  | seen
  | draft
  | flagged
  | answered
  | deleted
  | recent
  | junk
  | notJunk
  | forwarded
  | custom (name : String)
  deriving DecidableEq

def Keyword.hasAttachment : Keyword := .custom "$hasattachment"

structure MessageData where
  mailboxes : List MailboxUid
  keywords : List Keyword
  threadId : ℕ
  size : ℕ
  receivedAt : ℕ
  sentAt : ℕ
  deriving DecidableEq

namespace MessageData

def new (threadId size : ℕ) : MessageData := ⟨[], [], threadId, size, 0, 0⟩

def addMailbox (data : MessageData) (mailboxId uid : ℕ) : MessageData :=
  if data.mailboxes.any (fun m => m.mailboxId == mailboxId) then data
  else { data with mailboxes := data.mailboxes ++ [⟨mailboxId, uid⟩] }

def removeMailbox (data : MessageData) (mailboxId : ℕ) : MessageData :=
  { data with mailboxes := data.mailboxes.filter fun m => m.mailboxId != mailboxId }

def addKeyword (data : MessageData) (keyword : Keyword) : MessageData :=
  if keyword ∈ data.keywords then data
  else { data with keywords := data.keywords ++ [keyword] }

def removeKeyword (data : MessageData) (keyword : Keyword) : MessageData :=
  { data with keywords := data.keywords.filter fun k => k != keyword }

variable (data : MessageData)

@[simp] theorem size_addMailbox (mailboxId uid : ℕ) :
    (data.addMailbox mailboxId uid).size = data.size := by
  unfold addMailbox
  split <;> rfl

@[simp] theorem size_addKeyword (keyword : Keyword) :
    (data.addKeyword keyword).size = data.size := by
  unfold addKeyword
  split <;> rfl

@[simp] theorem mailboxes_addKeyword (keyword : Keyword) :
    (data.addKeyword keyword).mailboxes = data.mailboxes := by
  unfold addKeyword
  split <;> rfl

@[simp] theorem mailboxes_foldl_addKeyword (flags : List Keyword) (data : MessageData) :
    (flags.foldl addKeyword data).mailboxes = data.mailboxes := by
  induction flags generalizing data with
  | nil => rfl
  | cons flag flags ih => rw [List.foldl_cons, ih, mailboxes_addKeyword]

theorem mem_addMailbox {data : MessageData} {mailboxId uid : ℕ} {m : MailboxUid}
    (h : m ∈ (data.addMailbox mailboxId uid).mailboxes) :
    m ∈ data.mailboxes ∨ m = ⟨mailboxId, uid⟩ := by
  unfold addMailbox at h
  split at h
  · exact .inl h
  · exact (List.mem_append.1 h).imp_right List.mem_singleton.1

theorem subset_removeMailbox (mailboxId : ℕ) :
    (data.removeMailbox mailboxId).mailboxes ⊆ data.mailboxes :=
  fun _ h => (List.mem_filter.1 h).1

end MessageData

structure ByteRange where
  start : ℕ
  stop : ℕ
  deriving DecidableEq

inductive PartEncoding
  | none
  | base64
  | quotedPrintable
  | unknown
  deriving DecidableEq

inductive PartBody
  | text
  | html
  | binary
  | inlineBinary
  | message (root : ℕ)
  | multipart (children : List ℕ)
  deriving DecidableEq

structure PartHeader where
  name : String
  value : ByteRange
  deriving DecidableEq

structure MessagePart where
  headers : List PartHeader
  header : ByteRange
  body : ByteRange
  encoding : PartEncoding
  kind : PartBody
  deriving DecidableEq

structure MessageMetadata where
  blobHash : BlobHash
  parts : List MessagePart
  rawHeaders : Bytes
  preview : String
  deriving DecidableEq

inductive SpecialUse
  | none
  | inbox
  | sent
  | drafts
  | trash
  | junk
  | archive
  deriving DecidableEq

structure Mailbox where
  id : ℕ
  name : String
  role : SpecialUse
  uidValidity : ℕ
  deriving DecidableEq

end IrixMail.Mail

abbrev IrixMail.Digest := IrixMail.Bytes → IrixMail.Mail.BlobHash
