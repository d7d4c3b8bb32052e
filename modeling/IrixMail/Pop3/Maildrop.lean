import IrixMail.Mail.Mailboxes

/-!
# The maildrop of a POP3 session

The messages of the INBOX as they are when the session logs in, numbered in the
order of their UIDs. DELE marks an entry, RSET unmarks them all, and QUIT deletes
the messages of the marked entries.
-/

namespace IrixMail.Pop3
open Library Prog Store Mail Directory

structure MessageEntry where
  number : ℕ
  size : ℕ
  uid : String
  documentId : ℕ
  deleted : Bool
  deriving DecidableEq

abbrev Maildrop := List MessageEntry

namespace Maildrop
variable (messages : Maildrop)

def live : Maildrop := messages.filter fun message => !message.deleted

def octets : ℕ := (messages.map MessageEntry.size).sum

def find (number : ℕ) : Option MessageEntry :=
  List.find? (fun message => message.number == number && !message.deleted) messages

def mark (number : ℕ) : Maildrop → Maildrop
  | [] => []
  | message :: rest =>
    if message.number = number then { message with deleted := true } :: rest
    else message :: mark number rest

def noSuchMessage : String := "-ERR no such message\r\n"

def dele (number : ℕ) : Maildrop × String :=
  match List.find? (fun message => message.number == number) messages with
  | some message =>
    if !message.deleted then (mark number messages, s!"+OK message {number} deleted\r\n")
    else (messages, s!"-ERR message {number} already deleted\r\n")
  | none => (messages, noSuchMessage)

def unmark : Maildrop := messages.map fun message => { message with deleted := false }

def rset : Maildrop × String :=
  (unmark messages, s!"+OK maildrop has {messages.length} messages ({octets messages} octets)\r\n")

def statResponse : String := s!"+OK {(live messages).length} {octets (live messages)}\r\n"

def listAll : String :=
  s!"+OK {(live messages).length} messages ({octets (live messages)} octets)\r\n" ++
    String.join ((live messages).map fun message => s!"{message.number} {message.size}\r\n") ++
    ".\r\n"

def listOne (number : ℕ) : String :=
  match find messages number with
  | some message => s!"+OK {message.number} {message.size}\r\n"
  | none => noSuchMessage

def uidlAll : String :=
  "+OK\r\n" ++
    String.join ((live messages).map fun message => s!"{message.number} {message.uid}\r\n") ++
    ".\r\n"

def uidlOne (number : ℕ) : String :=
  match find messages number with
  | some message => s!"+OK {message.number} {message.uid}\r\n"
  | none => noSuchMessage

def doomed : List ℕ := (messages.filter MessageEntry.deleted).map MessageEntry.documentId

end Maildrop

def inboxId : ℕ := 1

def inboxUidValidity (createdAt : ℕ) : ℕ :=
  (((provisionMailboxes createdAt).find? fun mailbox => mailbox.id == inboxId).map
    Mailbox.uidValidity).getD 0

def numbered (uidValidity : ℕ) : ℕ → List (ℕ × MessageCacheEntry) → Maildrop
  | _, [] => []
  | number, (uid, entry) :: rest =>
    ⟨number, entry.size, s!"{uidValidity}{uid}", entry.documentId, false⟩ ::
      numbered uidValidity (number + 1) rest

def loadMaildrop (account : Account) : Action Maildrop := do
  let entries ← MessageStoreCache.entriesOf account.mailId
  pure (numbered (inboxUidValidity account.createdAt) 1 (membersOf inboxId entries))

structure Body where
  raw : Bytes
  header : ByteRange
  body : ByteRange

def loadBody (a documentId : ℕ) : Action (Option Body) := do
  match ← loadMetadata a documentId with
  | none => pure none
  | some metadata =>
    match ← exec (.blobGet metadata.blobHash) with
    | none => pure none
    | some raw =>
      match metadata.parts.head? with
      | some root => pure (some ⟨raw, root.header, root.body⟩)
      | none => pure (some ⟨raw, ⟨0, 0⟩, ⟨0, raw.length⟩⟩)

section
variable (env : Env)

def deleteEach (a : ℕ) : List ℕ → Action Unit
  | [] => pure ()
  | documentId :: rest => do
    let _ ← deleteMessage env a documentId
    deleteEach a rest

def commitDeletions (a : ℕ) (messages : Maildrop) : Action Maildrop := do
  deleteEach env a messages.doomed
  pure messages.live

end
end IrixMail.Pop3
