import IrixMail.Jmap.Value
import IrixMail.Mail.Mailboxes

/-!
# What the JMAP methods share

A method runs for one account and answers with a name, a JSON value and the id of the
call. The builder of messages, the parser behind the fields of an Email object and the
transfer decodings are libraries; a message that is built twice in one run comes out
alike, which in the source the clock and the message id prevent.
-/

namespace IrixMail.Jmap
open Library Prog Store Mail Directory

structure ComposeMailbox where
  name : String
  email : String
  deriving DecidableEq

structure Attachment where
  contentType : String
  name : String
  data : Bytes
  deriving DecidableEq

structure Compose where
  fromAddr : Option ComposeMailbox
  toAddr : List ComposeMailbox
  cc : List ComposeMailbox
  bcc : List ComposeMailbox
  subject : String
  textBody : String
  htmlBody : Option String
  attachments : List Attachment
  deriving DecidableEq

/-- An address as the builder writes it and the parser reads it. -/
structure Address where
  name : Option String
  email : String
  deriving DecidableEq

structure MessageBuilder where
  subject : String
  fromAddr : Option Address
  toAddr : List Address
  cc : List Address
  bcc : List Address
  textBody : String
  htmlBody : Option String
  attachments : List Attachment
  deriving DecidableEq

structure Libraries where
  writeToVec : MessageBuilder → Except String Bytes
  textFromHtml : String → String
  quotedPrintableDecode : Bytes → Option Bytes
  base64Decode : Bytes → Option Bytes
  /-- `parse_email`: the fields of an Email object that the octets of a message give,
  under a blob id and a size. -/
  parseEmail : Bytes → String → ℕ → Option Fields

def ComposeMailbox.address (mailbox : ComposeMailbox) : Address :=
  let name := trim mailbox.name
  ⟨if name = "" then none else some name, mailbox.email⟩

def Compose.builder (message : Compose) : MessageBuilder where
  subject := message.subject
  fromAddr := message.fromAddr.map ComposeMailbox.address
  toAddr := message.toAddr.map ComposeMailbox.address
  cc := message.cc.map ComposeMailbox.address
  bcc := message.bcc.map ComposeMailbox.address
  textBody := message.textBody
  htmlBody := message.htmlBody
  attachments := message.attachments

def buildMessage (lib : Libraries) (message : Compose) : Except Error Bytes :=
  match lib.writeToVec message.builder with
  | .ok raw => .ok raw
  | .error err => .error (.internal ("could not build the message: " ++ err))

structure Invocation where
  name : String
  arguments : Value
  callId : String

def methodError (kind callId : String) : Invocation :=
  ⟨"error", .object [("type", .str kind)], callId⟩

def setError (kind : String) : Value := .object [("type", .str kind)]

def accountIdOf (args : Value) : String := ((args.get "accountId").bind Value.asStr).getD ""

theorem toString_injective : Function.Injective (toString : ℕ → String) := by
  intro m n h
  have hdigits : ∀ k : ℕ, Nat.ofDigitChars 10 (toString k).toList 0 = k := fun k => by
    rw [Nat.toString_eq_ofList_toDigits, String.toList_ofList, Nat.ofDigitChars_ten_toDigits]
  rw [← hdigits m, ← hdigits n, h]

def collectionState (a : ℕ) (c : Collection) : Action String := do
  match ← caught (ChangeLog.latestChangeId a c) with
  | .ok latest => pure (toString latest)
  | .error _ => pure (toString 0)

def maxSizeAttachments : ℕ := 50000000

/-! ## Keywords -/

def parseSystemFlag (atom : String) : Option Keyword :=
  let rest := match atom.toList with
    | '\\' :: rest => some rest
    | '$' :: rest => some rest
    | _ => none
  rest.bind fun rest =>
    match toAsciiLowercase (String.ofList rest) with
    | "seen" => some .seen
    | "draft" => some .draft
    | "flagged" => some .flagged
    | "answered" => some .answered
    | "deleted" => some .deleted
    | "recent" => some .recent
    | "junk" => some .junk
    | "notjunk" => some .notJunk
    | "forwarded" => some .forwarded
    | _ => none

def keywordFromJmap (name : String) : Keyword :=
  match parseSystemFlag name with
  | some .recent | some .deleted | none => .custom name
  | some system => system

def keywordsFrom (value : Option Value) : List Keyword :=
  ((value.bind Value.asObject).map fun fields => fields.trueKeys.map keywordFromJmap).getD []

/-! ## Blobs -/

variable (lib : Libraries)

def decodeSection (bytes : Bytes) (encoding : ℕ) : Option Bytes :=
  match encoding with
  | 0 => some bytes
  | 1 => lib.quotedPrintableDecode bytes
  | 2 => lib.base64Decode bytes
  | _ => none

def splitAt (c : Char) (s : String) : List String :=
  (s.toList.splitOn c).map String.ofList

def blobHashOf (blobId : String) : Except Error (Option BlobHash) :=
  decodeBlobId ((splitAt '-' blobId).headD "")

/-- `fetch_blob`: the octets of a blob, or of a section of it. Nothing is asked about the
account. -/
def fetchBlob (blobId : String) : Action (Option Bytes) := do
  match ← checked (blobHashOf blobId) with
  | none => pure none
  | some hash =>
    match (splitAt '-' blobId).tail with
    | [] => exec (.blobGet hash)
    | [start, length, encoding] =>
      match parseU32 start, parseU32 length, parseU8 encoding with
      | some start, some length, some encoding => do
        let bytes ← exec (.blobGet hash)
        pure (bytes.bind fun bytes => decodeSection lib ((bytes.drop start).take length) encoding)
      | _, _, _ => pure none
    | _ => pure none

/-! ## Mailboxes -/

def accountMailboxes (a : ℕ) : Action (List Mailbox) := do
  match ← caught (loadMailboxes a) with
  | .ok rows => pure (if rows.isEmpty then provisionMailboxes 0 else rows)
  | .error _ => pure (provisionMailboxes 0)

end IrixMail.Jmap
