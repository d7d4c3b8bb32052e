import IrixMail.Jmap.Reply

/-! `Mailbox/get`: the mailboxes of the account with the numbers of their messages. -/

namespace IrixMail.Jmap
open Library Prog Store Mail

def roleName : SpecialUse → Value
  | .inbox => .str "inbox"
  | .sent => .str "sent"
  | .drafts => .str "drafts"
  | .trash => .str "trash"
  | .junk => .str "junk"
  | .archive => .str "archive"
  | .none => .null

def mailboxCounts (entries : List MessageCacheEntry) (mailboxId : ℕ) : ℕ × ℕ :=
  let members := entries.filter fun entry => entry.inMailbox mailboxId
  (members.length, (members.filter fun entry => !entry.hasKeyword .seen).length)

def mailboxObject (entries : List MessageCacheEntry) (order : ℕ) (mailbox : Mailbox) : Value :=
  let (total, unread) := mailboxCounts entries mailbox.id
  .object
    [("id", .str (toString mailbox.id)), ("name", .str mailbox.name), ("parentId", .null),
      ("role", roleName mailbox.role), ("sortOrder", .number order),
      ("totalEmails", .number total), ("unreadEmails", .number unread)]

def isWanted (wanted : Option (List String)) (mailbox : Mailbox) : Bool :=
  wanted.all fun ids => ids.contains (toString mailbox.id)

def mailboxList (entries : List MessageCacheEntry) (wanted : Option (List String))
    (mailboxes : List Mailbox) : List Value :=
  (mailboxes.zipIdx.filter fun x => isWanted wanted x.1).map fun x =>
    mailboxObject entries x.2 x.1

def mailboxesNotFound (wanted : Option (List String)) (mailboxes : List Mailbox) : List Value :=
  ((wanted.getD []).filter fun id =>
    !mailboxes.any fun mailbox => toString mailbox.id == id).map .str

def mailboxGet (a : ℕ) (args : Value) (callId : String) : Action Invocation := do
  let cache ← caught (MessageStoreCache.entriesOf a)
  let mailboxes ← accountMailboxes a
  let state ← collectionState a .mailbox
  let wanted := requestedIds args
  pure ⟨"Mailbox/get", .object
    [("accountId", .str (accountIdOf args)),
      ("list", .array (mailboxList (cache.toOption.getD []) wanted mailboxes)),
      ("notFound", .array (mailboxesNotFound wanted mailboxes)), ("state", .str state)], callId⟩

end IrixMail.Jmap
