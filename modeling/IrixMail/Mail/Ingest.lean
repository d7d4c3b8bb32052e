import IrixMail.Store.Fts

/-!
# What is read off a raw message

The message parser, the hash and the character tables are libraries of the
source. They enter as the fields of an `Env`: the parser as a function to what
the code takes from a parsed message, the hash as an injective function, since
the server treats equal digests as equal contents.
-/

namespace IrixMail.Mail
open Library Prog Store

structure MessageText where
  subject : String := ""
  body : String := ""
  fromAddr : String := ""
  toAddr : String := ""
  cc : String := ""
  bcc : String := ""
  deriving DecidableEq

inductive HeaderValue
  | text (s : String)
  | textList (l : List String)
  | other
  deriving DecidableEq

structure ParsedMail where
  parts : List MessagePart
  headerBlock : Bytes
  preview : String
  text : MessageText
  timestamp : Option ℤ
  hasAttachment : Bool
  inReplyTo : HeaderValue
  references : HeaderValue
  messageId : Option String
  /-- The values of the `Delivered-To` headers. -/
  deliveredTo : List String
  subject : Option String
  /-- The addresses of the `To` and `Cc` headers. -/
  addressees : List String
  /-- Some `List-` header is there. -/
  hasListHeader : Bool
  /-- The names the parser does not know, with their values as texts. -/
  otherHeaders : List (String × String)
  deriving DecidableEq

structure Env where
  digest : Bytes → BlobHash
  digest_injective : Function.Injective digest
  parse : Bytes → Option ParsedMail
  /-- The first half of the hash of a message id. -/
  messageIdDigest : String → Bytes
  unicode : Unicode
  /-- The text of the bytes, with replacement characters for what is not text. -/
  utf8Lossy : Bytes → String

/-- A message that is all body, in an encoding of one byte per character, kept
under its own bytes. -/
def Env.plain : Env where
  digest := id
  digest_injective := Function.injective_id
  parse raw := some
    { parts := [], headerBlock := [], preview := ""
      text := { body := String.ofList (raw.map fun b => Char.ofNat b.toNat) }
      timestamp := none, hasAttachment := false, inReplyTo := .other, references := .other
      messageId := none, deliveredTo := [], subject := none, addressees := []
      hasListHeader := false, otherHeaders := [] }
  messageIdDigest := utf8Bytes
  unicode := ⟨Char.isAlphanum, fun ch => [ch.toLower]⟩
  utf8Lossy raw := String.ofList (raw.map fun b => Char.ofNat b.toNat)

variable (env : Env)

def unparseable : Error := .invalidInput "message has no parseable headers"

def ingest (blobHash : BlobHash) (raw : Bytes) : Except Error MessageMetadata :=
  match env.parse raw with
  | none => .error unparseable
  | some p => .ok ⟨blobHash, p.parts, p.headerBlock, p.preview⟩

def messageHasAttachment (raw : Bytes) : Bool :=
  match env.parse raw with
  | none => false
  | some p => p.hasAttachment

def messageText (raw : Bytes) : Except Error MessageText :=
  match env.parse raw with
  | none => .error unparseable
  | some p => .ok p.text

def messageSentAt (raw : Bytes) : ℕ :=
  match (env.parse raw).bind ParsedMail.timestamp with
  | none => 0
  | some t => if 0 < t then t.toNat else 0

/-! ## Indexed texts -/

def MessageText.fields (t : MessageText) : List (Field × String) :=
  [(.subject, t.subject), (.body, t.body), (.fromAddr, t.fromAddr), (.toAddr, t.toAddr),
    (.cc, t.cc), (.bcc, t.bcc)]

def MessageText.entries (t : MessageText) : List (Field × String) :=
  let filled := t.fields.filter fun e => e.2 != ""
  filled.map (fun e => (.combined, e.2)) ++ filled

def indexOps (a documentId : ℕ) (text : MessageText) : Action (List WriteOp) :=
  Fts.indexOps env.unicode a .email documentId text.entries

def unindexOps (a documentId : ℕ) (text : MessageText) : Action (List WriteOp) :=
  Fts.removeOps env.unicode a .email documentId text.entries

/-! ## Threads -/

def maxReferences : ℕ := 20

def pushId (ids : List String) (id : String) : List String :=
  let id := trim (String.ofList
    (trimEnd (· == '>') (trimStart (· == '<') (trim id).toList)))
  if id ≠ "" ∧ ids.length < maxReferences ∧ id ∉ ids then ids ++ [id] else ids

def HeaderValue.collect : HeaderValue → List String
  | text id => [id]
  | textList l => l
  | other => []

def HeaderValue.collectReferences : HeaderValue → List String
  | textList l => l.reverse
  | v => v.collect

def messageIds (raw : Bytes) : List String :=
  match env.parse raw with
  | none => []
  | some p =>
    (p.inReplyTo.collect ++ p.references.collectReferences ++ p.messageId.toList).foldl pushId []

def lookupThreads (a : ℕ) : List String → Action (List (Option ℕ))
  | [] => pure []
  | id :: ids => do
    let found ← exec (.get (.thread a (env.messageIdDigest id)))
    let rest ← lookupThreads a ids
    pure (found :: rest)

structure ThreadResolution where
  threadId : ℕ
  ops : List WriteOp

def threadOps (a threadId : ℕ) (ids : List String) (lookups : List (Option ℕ)) : List WriteOp :=
  ((ids.zip lookups).filter fun e => e.2.isNone).map fun e =>
    .set (.thread a (env.messageIdDigest e.1)) threadId

def resolveThread (a documentId : ℕ) (raw : Bytes) : Action ThreadResolution := do
  let ids := messageIds env raw
  let lookups ← lookupThreads env a ids
  let threadId := (lookups.findSome? id).getD documentId
  pure ⟨threadId, threadOps env a threadId ids lookups⟩

end IrixMail.Mail
