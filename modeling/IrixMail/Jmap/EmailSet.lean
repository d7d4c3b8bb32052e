import IrixMail.Jmap.Context

/-!
# Email/set

Creating an email goes through the delivery path of arriving mail: the message is built
from the object, delivered with a target that overrides the Sieve script, and its
keywords are added afterwards. The id that is reported is the one that was drawn before.
-/

namespace IrixMail.Jmap
open Library Prog Store Mail Directory

/-! ## Reading the object -/

def mailboxOf (entry : Value) : Option ComposeMailbox :=
  ((entry.get "email").bind Value.asStr).map fun email =>
    ⟨((entry.get "name").bind Value.asStr).getD "", email⟩

def mailboxesFrom (value : Option Value) : List ComposeMailbox :=
  ((value.bind Value.asArray).map fun entries => entries.filterMap mailboxOf).getD []

def bodyPart (object : Value) (key : String) : Option String := do
  let values ← (object.get "bodyValues").bind Value.asObject
  let parts ← (object.get key).bind Value.asArray
  let part ← parts.head?
  let partId ← (part.get "partId").bind Value.asStr
  let body ← values.lookup partId
  (body.get "value").bind Value.asStr

variable (lib : Libraries)

def bodies (object : Value) : String × Option String :=
  match bodyPart object "textBody", bodyPart object "htmlBody" with
  | some text, html => (text, html)
  | none, some html => (lib.textFromHtml html, some html)
  | none, none =>
    let first := do
      let values ← (object.get "bodyValues").bind Value.asObject
      let body ← values.head?
      (body.2.get "value").bind Value.asStr
    (first.getD "", none)

def attachmentsTooLarge : Error := .invalidInput "attachments exceed maxSizeAttachmentsPerEmail"

def attachmentOf (entry : Value) (data : Bytes) : Attachment where
  contentType := ((entry.get "type").bind Value.asStr).getD "application/octet-stream"
  name := ((entry.get "name").bind Value.asStr).getD "attachment"
  data := data

def attachmentsAfter (total : ℕ) : List Value → Action (List Attachment)
  | [] => pure []
  | entry :: entries =>
    match (entry.get "blobId").bind Value.asStr with
    | none => attachmentsAfter total entries
    | some blobId => do
      match ← fetchBlob lib blobId with
      | none => attachmentsAfter total entries
      | some data =>
        if maxSizeAttachments < total + data.length then .fail attachmentsTooLarge
        else do
          let others ← attachmentsAfter (total + data.length) entries
          pure (attachmentOf entry data :: others)

def attachmentsFrom (object : Value) : Action (List Attachment) :=
  attachmentsAfter lib 0 (((object.get "attachments").bind Value.asArray).getD [])

def composeOf (object : Value) (self : ComposeMailbox) (attachments : List Attachment) :
    Compose where
  fromAddr := some ((mailboxesFrom (object.get "from")).headD self)
  toAddr := mailboxesFrom (object.get "to")
  cc := mailboxesFrom (object.get "cc")
  bcc := mailboxesFrom (object.get "bcc")
  subject := ((object.get "subject").bind Value.asStr).getD ""
  textBody := (bodies lib object).1
  htmlBody := (bodies lib object).2
  attachments := attachments

def mailboxKeys (object : Value) : Option (List String) :=
  ((object.get "mailboxIds").bind Value.asObject).map Fields.trueKeys

def noExistingMailbox : Error := .invalidInput "mailboxIds names no existing mailbox"

def deliveryTarget (object : Value) (mailboxes : List Mailbox) : Except Error DeliveryTarget :=
  match mailboxKeys object with
  | none => .ok (.role .drafts)
  | some keys =>
    match (keys.filterMap parseU32).find? fun id => mailboxes.any fun m => m.id == id with
    | some id => .ok (.mailbox id)
    | none => .error noExistingMailbox

/-! ## Creating -/

/-- The account, its own address, and the message that the object describes. -/
structure Draft where
  account : Account
  selfEmail : String
  raw : Bytes

def prepare (accountId : ℕ) (object : Value) : Action Draft := do
  let record ← AccountRegistry.get accountId
  let domain ← caught (DomainRegistry.get record.domainId)
  let domainName := match domain with
    | .ok domain => domain.name
    | .error _ => ""
  let selfEmail := record.localPart ++ "@" ++ domainName
  let attachments ← attachmentsFrom lib object
  let raw ← checked
    (buildMessage lib (composeOf lib object ⟨record.displayName, selfEmail⟩ attachments))
  pure ⟨record, selfEmail, raw⟩

def addKeywords (object : Value) : Mutation := fun data =>
  .ok ((keywordsFrom (object.get "keywords")).foldl MessageData.addKeyword data)

variable (env : Env)

def requestOf (draft : Draft) (mailboxes : List Mailbox) (target : DeliveryTarget)
    (documentId receivedAt : ℕ) : DeliveryRequest where
  account := draft.account
  mailboxes := mailboxes
  sieve := none
  mailFrom := draft.selfEmail
  recipient := draft.selfEmail
  documentId := documentId
  raw := draft.raw
  targetOverride := some target
  receivedAt := receivedAt

/-- The rest of `create_email`; what the delivery says about itself is not looked at. -/
def fileDraft (a : ℕ) (object : Value) (draft : Draft) : Action ℕ := do
  let documentId ← allocateDocumentId a
  let mailboxes ← accountMailboxes a
  let target ← checked (deliveryTarget object mailboxes)
  let receivedAt ← exec .now
  let _ ← deliver env (requestOf draft mailboxes target documentId receivedAt)
  let _ ← updateMessage a documentId (addKeywords object)
  pure documentId

def createEmail (accountId : ℕ) (object : Value) : Action ℕ := do
  let draft ← prepare lib accountId object
  fileDraft env (asU32 accountId) object draft

/-! ## Patches -/

def stripPrefix (before s : String) : Option String :=
  (before.toList.isPrefixOf? s.toList).map String.ofList

def patchField (key : String) (value : Value) : PatchField :=
  if key = "keywords" then .keywords (keywordsFrom (some value))
  else
    match stripPrefix "keywords/" key with
    | some name => .keyword (keywordFromJmap name) (value.asBool == some true)
    | none =>
      if key = "mailboxIds" then
        match value.asObject with
        | some fields => .mailboxIds (fields.trueKeys.filterMap parseU32)
        | none => .other
      else
        match (stripPrefix "mailboxIds/" key).bind parseU32 with
        | some mailboxId => .mailboxId mailboxId (value.asBool == some true)
        | none => .other

def patchFields (patch : Value) : List PatchField :=
  (patch.asObject.getD []).map fun field => patchField field.1 field.2

/-! ## The method -/

def createErrorKind (e : Error) : String :=
  if e = attachmentsTooLarge then "tooLarge" else "serverFail"

/-- What has become of the objects of a call. -/
structure SetOutcome where
  created : Fields := []
  updated : Fields := []
  destroyed : List Value := []
  notCreated : Fields := []
  notUpdated : Fields := []
  notDestroyed : Fields := []

def createEach (accountId : ℕ) : Fields → SetOutcome → Action SetOutcome
  | [], out => pure out
  | (creationId, object) :: rest, out => do
    let out ← match ← caught (createEmail lib env accountId object) with
      | .ok documentId => pure { out with
          created := out.created.insert creationId (.object [("id", .str (toString documentId))]) }
      | .error e => pure { out with
          notCreated := out.notCreated.insert creationId (setError (createErrorKind e)) }
    createEach accountId rest out

def updateEachEmail (a : ℕ) : Fields → SetOutcome → Action SetOutcome
  | [], out => pure out
  | (id, patch) :: rest, out => do
    let out ← match parseU32 id with
      | none => pure { out with notUpdated := out.notUpdated.insert id (setError "notFound") }
      | some documentId => do
        match ← caught (applyPatch a documentId (patchFields patch)) with
        | .ok true => pure { out with updated := out.updated.insert id .null }
        | .ok false => pure { out with notUpdated := out.notUpdated.insert id (setError "notFound") }
        | .error _ => pure { out with notUpdated := out.notUpdated.insert id (setError "serverFail") }
    updateEachEmail a rest out

def destroyEach (a : ℕ) : List String → SetOutcome → Action SetOutcome
  | [], out => pure out
  | id :: rest, out => do
    let out ← match parseU32 id with
      | none => pure { out with notDestroyed := out.notDestroyed.insert id (setError "notFound") }
      | some documentId => do
        match ← caught (deleteMessage env a documentId) with
        | .ok true => pure { out with destroyed := out.destroyed ++ [.str id] }
        | .ok false =>
          pure { out with notDestroyed := out.notDestroyed.insert id (setError "notFound") }
        | .error _ =>
          pure { out with notDestroyed := out.notDestroyed.insert id (setError "serverFail") }
    destroyEach a rest out

def fieldsOf (args : Value) (key : String) : Fields := ((args.get key).bind Value.asObject).getD []

def destroyedIds (args : Value) : List String :=
  (((args.get "destroy").bind Value.asArray).getD []).filterMap Value.asStr

def setResponse (args : Value) (oldState newState : String) (out : SetOutcome) :
    Value :=
  .object [("accountId", .str (accountIdOf args)), ("created", .object out.created),
    ("destroyed", .array out.destroyed), ("newState", .str newState),
    ("notCreated", .object out.notCreated), ("notDestroyed", .object out.notDestroyed),
    ("notUpdated", .object out.notUpdated), ("oldState", .str oldState),
    ("updated", .object out.updated)]

def stateMismatch (args : Value) (oldState : String) : Bool :=
  ((args.get "ifInState").bind Value.asStr).any fun expected => expected != oldState

def emailSet (accountId : ℕ) (args : Value) (callId : String) : Action Invocation := do
  let a := asU32 accountId
  let oldState ← collectionState a .email
  if stateMismatch args oldState then pure (methodError "stateMismatch" callId)
  else do
    let out ← createEach lib env accountId (fieldsOf args "create") {}
    let out ← updateEachEmail a (fieldsOf args "update") out
    let out ← destroyEach env a (destroyedIds args) out
    let newState ← collectionState a .email
    pure ⟨"Email/set", setResponse args oldState newState out, callId⟩

end IrixMail.Jmap
