import IrixMail.Mail.Forward
import IrixMail.Store.ChangeLog
import IrixMail.Store.Quota

/-!
# Filing a message

`deliver` files an arriving message for an account, after its Sieve script and
its forwarding have had their say; `appendMessage` files a message a client
uploads. Both put the body into the blob store, gather everything else into one
batch and commit it.
-/

namespace IrixMail.Mail
open Library Prog Store Directory

inductive DeliveryTarget
  | role (role : SpecialUse)
  | mailbox (id : ℕ)
  deriving DecidableEq

structure DeliveryRequest where
  account : Account
  mailboxes : List Mailbox
  sieve : Option Script
  mailFrom : String
  recipient : String
  documentId : ℕ
  raw : Bytes
  targetOverride : Option DeliveryTarget
  receivedAt : ℕ

def DeliveryRequest.plain (accountId documentId : ℕ) (raw : Bytes) : DeliveryRequest where
  account := .plain accountId "alice"
  mailboxes := [⟨1, "Inbox", .inbox, 1⟩]
  sieve := none
  mailFrom := "bob@example.org"
  recipient := "alice@example.com"
  documentId := documentId
  raw := raw
  targetOverride := none
  receivedAt := 0

structure DeliveryOutcome where
  filedInto : List ℕ := []
  flags : List Keyword := []
  relays : List ForwardRelay := []
  discarded : Bool := false
  overQuota : Option QuotaVerdict := none
  deriving DecidableEq

def DeliveryOutcome.isOverQuota (o : DeliveryOutcome) : Bool := o.overQuota.isSome

def noInbox : Error := .notFound "account has no inbox to deliver into"

def findRole (mailboxes : List Mailbox) (role : SpecialUse) : Option Mailbox :=
  mailboxes.find? fun m => m.role = role

def findInbox (mailboxes : List Mailbox) : Except Error Mailbox :=
  match findRole mailboxes .inbox with
  | some m => .ok m
  | none => .error noInbox

def pushUnique (targets : List Mailbox) (m : Mailbox) : List Mailbox :=
  if targets.any fun t => t.id == m.id then targets else targets ++ [m]

def resolveTargets (sieve : SieveOutcome) (mailboxes : List Mailbox) (inbox : Mailbox) :
    List Mailbox :=
  let filed := sieve.fileInto.foldl
    (fun targets folder => pushUnique targets ((mailboxes.find? fun m => m.name = folder).getD inbox))
    []
  if sieve.keep || sieve.fileInto.isEmpty then pushUnique filed inbox else filed

def limitsFor (account : Account) : QuotaLimits := ⟨account.quotaBytes, account.quotaMessages⟩

def nextUid (a : ℕ) (m : Mailbox) : Action ℕ := do
  let next ← exec (.addAndGet (.number a .email m.id) 1)
  pure (intAsU32 (max next 1))

def accountLinkOp (a : ℕ) (hash : BlobHash) (amount : ℤ) : WriteOp := .add (.link a hash) amount
def referenceOp (hash : BlobHash) : WriteOp := .add (.refCount hash) 1

def fileInto (a : ℕ) : List Mailbox → MessageData → Action MessageData
  | [], data => pure data
  | m :: ms, data => do
    let uid ← nextUid a m
    fileInto a ms (data.addMailbox m.id uid)

variable (env : Env)

def filingOps (a documentId : ℕ) (metadata : MessageMetadata) (data : MessageData) (size : ℕ)
    (threading index : List WriteOp) : List WriteOp :=
  [.set (.metadata a documentId) metadata, .set (.data a documentId) data] ++ threading ++
    [referenceOp metadata.blobHash, accountLinkOp a metadata.blobHash 1] ++
    Quota.adjustOps a size 1 ++ index

/-- The common end of `deliver` and `appendMessage`: the postings are read, the
change id is drawn, and all is written in one batch. -/
def commitMessage (a documentId : ℕ) (raw : Bytes) (metadata : MessageMetadata)
    (data : MessageData) (threading : List WriteOp) : Action Unit := do
  let text := (messageText env raw).toOption.getD {}
  let index ← indexOps env a documentId text
  let (_, change) ← ChangeLog.recordOp a .email documentId .insert
  exec (.batch (filingOps a documentId metadata data raw.length threading index ++ [change]))

def newData (raw : Bytes) (threadId receivedAt : ℕ) : MessageData :=
  { MessageData.new threadId (asU32 raw.length) with
    receivedAt := receivedAt
    sentAt := messageSentAt env raw }

def flagAttachment (raw : Bytes) (data : MessageData) : MessageData :=
  if messageHasAttachment env raw then data.addKeyword .hasAttachment else data

def targetsOf (request : DeliveryRequest) (sieve : SieveOutcome) (inbox : Mailbox) :
    List Mailbox :=
  match request.targetOverride with
  | some (.role role) => [(findRole request.mailboxes role).getD inbox]
  | some (.mailbox id) => [(request.mailboxes.find? fun m => m.id = id).getD inbox]
  | none => resolveTargets sieve request.mailboxes inbox

def sieveOutcome (request : DeliveryRequest) : SieveOutcome :=
  match request.sieve with
  | some script => script request.raw request.mailFrom request.recipient
  | none => { keep := true }

def deliveryRelays (request : DeliveryRequest) : List ForwardRelay :=
  forwardTo env (sieveOutcome request).redirects request.recipient request.mailFrom request.raw ++
    (planForward env request.account.forwarding request.recipient request.mailFrom
      request.raw).relays

def fileLocally (request : DeliveryRequest) (metadata : MessageMetadata) (inbox : Mailbox) :
    Action DeliveryOutcome := do
  let a := request.account.mailId
  let sieve := sieveOutcome request
  let targets := targetsOf request sieve inbox
  let usage ← Quota.usage a
  let verdict := enforceQuota (limitsFor request.account) usage request.raw.length
  if verdict.isOverQuota then
    pure { relays := deliveryRelays env request, flags := sieve.flags, overQuota := some verdict }
  else do
    let blobHash ← exec (.blobPut request.raw)
    let threading ← resolveThread env a request.documentId request.raw
    let data := flagAttachment env request.raw
      (newData env request.raw threading.threadId request.receivedAt)
    let filed ← fileInto a targets data
    let data := sieve.flags.foldl MessageData.addKeyword filed
    commitMessage env a request.documentId request.raw { metadata with blobHash := blobHash } data
      threading.ops
    pure { filedInto := targets.map Mailbox.id, flags := sieve.flags,
           relays := deliveryRelays env request }

def deliver (request : DeliveryRequest) : Action DeliveryOutcome := do
  let metadata ← checked (ingest env [] request.raw)
  let sieve := sieveOutcome request
  let plan := planForward env request.account.forwarding request.recipient request.mailFrom
    request.raw
  if sieve.discarded then
    pure { relays := deliveryRelays env request, discarded := true, flags := sieve.flags }
  else if !plan.keepLocal then
    pure { relays := deliveryRelays env request, flags := sieve.flags }
  else do
    let inbox ← checked (findInbox request.mailboxes)
    fileLocally env request metadata inbox

structure AppendRequest where
  account : Account
  mailbox : Mailbox
  flags : List Keyword
  receivedAt : ℕ
  documentId : ℕ
  raw : Bytes

structure AppendOutcome where
  uid : ℕ
  overQuota : Bool
  deriving DecidableEq

def appendMessage (request : AppendRequest) : Action AppendOutcome := do
  let a := request.account.mailId
  let metadata ← checked (ingest env [] request.raw)
  let usage ← Quota.usage a
  let verdict := enforceQuota (limitsFor request.account) usage request.raw.length
  if verdict.isOverQuota then pure ⟨0, true⟩
  else do
    let blobHash ← exec (.blobPut request.raw)
    let uid ← nextUid a request.mailbox
    let threading ← resolveThread env a request.documentId request.raw
    let data := (newData env request.raw threading.threadId request.receivedAt).addMailbox
      request.mailbox.id uid
    let data := flagAttachment env request.raw (request.flags.foldl MessageData.addKeyword data)
    commitMessage env a request.documentId request.raw { metadata with blobHash := blobHash } data
      threading.ops
    pure ⟨uid, false⟩

end IrixMail.Mail
