import IrixMail.Mail.Deliver

/-!
# Changing and deleting stored messages

`updateMessage` and `deleteMessage` read the data record and write it back with a
plain batch; `updateMessages` makes its batch conditional on the records it read
and starts over when it loses. A mutation is given by what it does to the record:
the UIDs that some callers draw inside of theirs are not commands here.
-/

namespace IrixMail.Mail
open Library Prog Store

def allocateDocumentId (a : ℕ) : Action ℕ := do
  let next ← exec (.addAndGet (.number a .email 0) 1)
  pure (intAsU32 next)

abbrev Mutation := MessageData → Except Error MessageData

def loadData (a d : ℕ) : Action (Option MessageData) := exec (.get (.data a d))
def loadMetadata (a d : ℕ) : Action (Option MessageMetadata) := exec (.get (.metadata a d))

def pushVanishedOps (a : ℕ) (after : List MailboxUid) : List MailboxUid → Action (List WriteOp)
  | [] => pure []
  | entry :: before =>
    if entry ∈ after then pushVanishedOps a after before
    else do
      let (_, op) ← ChangeLog.recordVanishedOp a entry.mailboxId entry.uid
      let rest ← pushVanishedOps a after before
      pure (op :: rest)

def updateMessage (a d : ℕ) (mutate : Mutation) : Action Bool := do
  match ← loadData a d with
  | none => pure false
  | some original => do
    let data ← checked (mutate original)
    let vanished ← pushVanishedOps a data.mailboxes original.mailboxes
    let (_, change) ← ChangeLog.recordOp a .email d .update
    exec (.batch ([.set (.data a d) data] ++ vanished ++ [change]))
    pure true

structure UpdatedMessage where
  documentId : ℕ
  changeId : Option ℕ
  data : MessageData

structure UpdateAttempt where
  results : List UpdatedMessage
  asserts : List ValueAssert
  ops : List WriteOp

def updateOne (a d : ℕ) (mutate : Mutation) : Action UpdateAttempt := do
  match ← loadData a d with
  | none => pure ⟨[], [], []⟩
  | some original => do
    let data ← checked (mutate original)
    if data = original then pure ⟨[⟨d, none, data⟩], [], []⟩
    else do
      let vanished ← pushVanishedOps a data.mailboxes original.mailboxes
      let (changeId, change) ← ChangeLog.recordOp a .email d .update
      pure ⟨[⟨d, some changeId, data⟩], [⟨.data a d, some original⟩],
        [.set (.data a d) data] ++ vanished ++ [change]⟩

def updateEach (a : ℕ) (mutate : ℕ → Mutation) : List ℕ → Action UpdateAttempt
  | [] => pure ⟨[], [], []⟩
  | d :: ds => do
    let one ← updateOne a d (mutate d)
    let rest ← updateEach a mutate ds
    pure ⟨one.results ++ rest.results, one.asserts ++ rest.asserts, one.ops ++ rest.ops⟩

def keptLosing : Error := .store "message update kept losing to concurrent writers"

def updateRetry (a : ℕ) (ds : List ℕ) (mutate : ℕ → Mutation) : ℕ → Action (List UpdatedMessage)
  | 0 => .fail keptLosing
  | attempts + 1 => do
    let attempt ← updateEach a mutate ds
    if attempt.ops.isEmpty then pure attempt.results
    else do
      let committed ← exec (.batchConditional attempt.asserts attempt.ops)
      if committed then pure attempt.results else updateRetry a ds mutate attempts

def updateRaceAttempts : ℕ := 4

def updateMessages (a : ℕ) (ds : List ℕ) (mutate : ℕ → Mutation) :
    Action (List UpdatedMessage) :=
  updateRetry a ds mutate updateRaceAttempts

def releaseMessage (hash : BlobHash) : Action ℤ := do
  let remaining ← exec (.addAndGet (.refCount hash) (-1))
  pure (max remaining 0)

variable (env : Env)

def removalIndexOps (a d : ℕ) (hash : BlobHash) : Action (List WriteOp) := do
  match ← exec (.blobGet hash) with
  | none => pure []
  | some raw =>
    match messageText env raw with
    | .error _ => pure []
    | .ok text => unindexOps env a d text

def removalMetadataOps (a d : ℕ) : Option MessageMetadata → Action (List WriteOp)
  | none => pure []
  | some metadata => do
    let index ← removalIndexOps env a d metadata.blobHash
    pure (index ++ [accountLinkOp a metadata.blobHash (-1)])

def removalOps (a d size : ℕ) (vanished : List WriteOp) : List WriteOp :=
  [.delete (.data a d), .delete (.metadata a d)] ++ Quota.adjustOps a (-size) (-1) ++ vanished

def releaseAfter : Option MessageMetadata → Action Unit
  | none => pure ()
  | some metadata => do
    let _ ← releaseMessage metadata.blobHash
    pure ()

/-- The records go first and the blob reference after them, so that a crash can
only orphan a blob. -/
def deleteMessage (a d : ℕ) : Action Bool := do
  match ← loadData a d with
  | none => pure false
  | some data => do
    let metadata ← loadMetadata a d
    let linked ← removalMetadataOps env a d metadata
    let vanished ← pushVanishedOps a [] data.mailboxes
    let (_, change) ← ChangeLog.recordOp a .email d .delete
    exec (.batch (linked ++ removalOps a d data.size vanished ++ [change]))
    releaseAfter metadata
    pure true

end IrixMail.Mail
