import IrixMail.Mail.Cache
import IrixMail.Mail.Resolve

/-!
# Mailboxes

A mailbox is a row with a name; the messages in it are those whose data record
has an entry for its id, with the UID they have there. UIDs come from a counter
under the id of the mailbox, which outlives the row.
-/

namespace IrixMail.Mail
open Library Prog Store

def uidAmong (mailboxes : List MailboxUid) (mailboxId : ℕ) : Option ℕ :=
  (mailboxes.find? fun m => m.mailboxId == mailboxId).map MailboxUid.uid

def MessageData.inMailbox (data : MessageData) (mailboxId : ℕ) : Bool :=
  data.mailboxes.any fun m => m.mailboxId == mailboxId

namespace MessageCacheEntry
variable (entry : MessageCacheEntry)

def inMailbox (mailboxId : ℕ) : Bool := entry.mailboxes.any fun m => m.mailboxId == mailboxId
def uidIn (mailboxId : ℕ) : Option ℕ := uidAmong entry.mailboxes mailboxId
def hasKeyword (keyword : Keyword) : Bool := keyword ∈ entry.keywords

end MessageCacheEntry

def lastUid (a mailboxId : ℕ) : Action ℕ := do
  let counter ← exec (.counter (.number a .email mailboxId))
  pure (intAsU32 (max counter 0))

namespace MessageStoreCache

def cachedEntry : Sigma Val → Option MessageCacheEntry
  | ⟨.data _ d, data⟩ => some (.fromData d data)
  | _ => none

/-- The entries of a cache that is built anew. The map of the cache has them in no
order; here they stand in the order of the scan. -/
def entriesOf (a : ℕ) : Action (List MessageCacheEntry) := do
  let _ ← ChangeLog.latestChangeId a .email
  let rows ← exec (.iterate (.ofCollection .property a .email))
  pure (rows.filterMap cachedEntry)

end MessageStoreCache

def sortByUid (members : List (ℕ × MessageCacheEntry)) : List (ℕ × MessageCacheEntry) :=
  members.insertionSort fun x y => x.1 ≤ y.1

def membersOf (mailboxId : ℕ) (entries : List MessageCacheEntry) : List (ℕ × MessageCacheEntry) :=
  sortByUid ((entries.filter fun entry => entry.inMailbox mailboxId).filterMap fun entry =>
    (entry.uidIn mailboxId).map fun uid => (uid, entry))

/-! ## Creating, renaming and deleting -/

def spamId : ℕ := 5
def firstUserMailboxId : ℕ := spamId + 1

def mailboxIdCounter : ℕ := 1

def allocateMailboxId (a : ℕ) : Action ℕ := do
  let next ← exec (.addAndGet (.number a .mailbox mailboxIdCounter) 1)
  let allocated := intAsU32 next
  let mailboxes ← loadMailboxes a
  let floor := max ((mailboxes.map Mailbox.id).max?.getD 0) spamId
  if floor < allocated then pure allocated
  else do
    let next ← exec (.addAndGet (.number a .mailbox mailboxIdCounter) (floor + 1 - allocated))
    pure (intAsU32 next)

def createMailbox (a : ℕ) (name : String) (uidValidity : ℕ) : Action Mailbox := do
  let nextId ← allocateMailboxId a
  let role : SpecialUse := if eqIgnoreAsciiCase name "Archive" then .archive else .none
  let mailbox : Mailbox := ⟨nextId, name, role, uidValidity⟩
  let (_, change) ← ChangeLog.recordOp a .mailbox nextId .insert
  exec (.batch [.set (.mailbox a nextId) mailbox, change])
  pure mailbox

def renameMailbox (a mailboxId : ℕ) (newName : String) : Action Bool := do
  let mailboxes ← loadMailboxes a
  match mailboxes.find? fun mailbox => mailbox.id = mailboxId with
  | none => pure false
  | some mailbox => do
    let (_, change) ← ChangeLog.recordOp a .mailbox mailboxId .update
    exec (.batch [.set (.mailbox a mailbox.id) { mailbox with name := newName }, change])
    pure true

inductive MailboxDelete
  | deleted
  | hasMail
  deriving DecidableEq

variable (env : Env)

def leaveMailbox (a mailboxId documentId mailboxCount : ℕ) (mutate : MessageData → MessageData) :
    Action Unit := do
  let _ ← if mailboxCount ≤ 1 then deleteMessage env a documentId
    else updateMessage a documentId fun data => .ok (mutate (data.removeMailbox mailboxId))
  pure ()

def removeMembers (a mailboxId : ℕ) : List MessageCacheEntry → Action Unit
  | [] => pure ()
  | entry :: entries => do
    leaveMailbox env a mailboxId entry.documentId entry.mailboxes.length id
    removeMembers a mailboxId entries

def deleteMailbox (a mailboxId : ℕ) (removeEmails : Bool) : Action MailboxDelete := do
  let entries ← MessageStoreCache.entriesOf a
  let members := entries.filter fun entry => entry.inMailbox mailboxId
  if !removeEmails && !members.isEmpty then pure .hasMail
  else do
    removeMembers env a mailboxId members
    let (_, change) ← ChangeLog.recordOp a .mailbox mailboxId .delete
    exec (.batch [.delete (.mailbox a mailboxId), change])
    pure .deleted

/-! ## Mutations that draw UIDs -/

def updateMessageWith (a d : ℕ) (mutate : MessageData → Action MessageData) : Action Bool := do
  match ← loadData a d with
  | none => pure false
  | some original => do
    let data ← mutate original
    let vanished ← pushVanishedOps a data.mailboxes original.mailboxes
    let (_, change) ← ChangeLog.recordOp a .email d .update
    exec (.batch ([.set (.data a d) data] ++ vanished ++ [change]))
    pure true

inductive PatchField
  | keywords (wanted : List Keyword)
  | keyword (keyword : Keyword) (on : Bool)
  | mailboxIds (wanted : List ℕ)
  | mailboxId (mailboxId : ℕ) (on : Bool)
  | other

def nextUidIn (a mailboxId : ℕ) : Action ℕ := nextUid a ⟨mailboxId, "", .none, 0⟩

def ensureMailbox (a mailboxId : ℕ) (data : MessageData) : Action MessageData :=
  if data.inMailbox mailboxId then pure data
  else do
    let uid ← nextUidIn a mailboxId
    pure (data.addMailbox mailboxId uid)

def ensureMailboxes (a : ℕ) : List ℕ → MessageData → Action MessageData
  | [], data => pure data
  | mailboxId :: rest, data => do
    let data ← ensureMailbox a mailboxId data
    ensureMailboxes a rest data

def setMailboxes (a : ℕ) (wanted : List ℕ) (data : MessageData) : Action MessageData :=
  let current := data.mailboxes.map MailboxUid.mailboxId
  ensureMailboxes a wanted ((current.filter (· ∉ wanted)).foldl MessageData.removeMailbox data)

def PatchField.apply (a : ℕ) (data : MessageData) : PatchField → Action MessageData
  | keywords wanted => pure (wanted.foldl MessageData.addKeyword { data with keywords := [] })
  | keyword k on => pure (if on then data.addKeyword k else data.removeKeyword k)
  | mailboxIds wanted => setMailboxes a wanted data
  | mailboxId id on => if on then ensureMailbox a id data else pure (data.removeMailbox id)
  | other => pure data

def patchData (a : ℕ) : List PatchField → MessageData → Action MessageData
  | [], data => pure data
  | field :: fields, data => do
    let data ← field.apply a data
    patchData a fields data

def applyPatch (a d : ℕ) (fields : List PatchField) : Action Bool :=
  updateMessageWith a d (patchData a fields)

/-! ## Rows -/

theorem mailbox_of_prefix {a : ℕ} {l : Loc}
    (h : (KeyPrefix.mk .property (some a) (some .mailbox)).encode <+: l.encode) :
    ∃ id, l = .mailbox a id := by
  cases l with
  | mailbox b id =>
    obtain rfl : a = b := by simpa [KeyPrefix.encode, Loc.encode, Key.encode] using h
    exact ⟨id, rfl⟩
  | counter k =>
    cases k <;> simp [KeyPrefix.encode, Loc.encode, CounterLoc.key, Key.encode, Subspace.asByte] at h
  | _ =>
    exfalso
    simp [KeyPrefix.encode, Loc.encode, Key.encode, Subspace.asByte, Collection.asByte] at h

theorem row_of_cachedEntry {a : ℕ} {s : Records} {row : Sigma Val} {entry : MessageCacheEntry}
    (hrow : row ∈ s.iterate (.ofCollection .property a .email))
    (hentry : MessageStoreCache.cachedEntry row = some entry) :
    ∃ data, row = ⟨.data a entry.documentId, data⟩ ∧
      s.lookup (.data a entry.documentId) = some data ∧ data.mailboxes = entry.mailboxes := by
  obtain ⟨l, v⟩ := row
  obtain ⟨hkey, hlookup⟩ := Records.mem_iterate.1 hrow
  cases l with
  | data b d =>
    obtain rfl : a = b := by
      simpa [KeyPrefix.ofCollection, KeyPrefix.encode, Loc.encode, Key.encode] using hkey
    obtain rfl : MessageCacheEntry.fromData d v = entry := Option.some.inj hentry
    exact ⟨v, rfl, hlookup, rfl⟩
  | _ => simp [MessageStoreCache.cachedEntry] at hentry

theorem nodup_cached (s : Records) (a : ℕ) :
    (((s.iterate (.ofCollection .property a .email)).filterMap MessageStoreCache.cachedEntry).map
      MessageCacheEntry.documentId).Nodup := by
  refine List.pairwise_map.2 (List.pairwise_filterMap.2 ?_)
  refine List.Pairwise.imp_of_mem ?_ (Table.nodup_scan Loc.encode _ s)
  intro row row' hrow hrow' hne entry hentry entry' hentry' hid
  obtain ⟨x, rfl, hx, -⟩ := row_of_cachedEntry hrow hentry
  obtain ⟨y, rfl, hy, -⟩ := row_of_cachedEntry hrow' hentry'
  rw [← hid, hx] at hy
  rw [← hid, Option.some.inj hy] at hne
  exact hne rfl

theorem iterate_mailboxes_congr {a : ℕ} {s t : Records}
    (h : ∀ id, t.lookup (.mailbox a id) = s.lookup (.mailbox a id)) :
    t.iterate ⟨.property, some a, some .mailbox⟩ = s.iterate ⟨.property, some a, some .mailbox⟩ := by
  refine Table.scan_congr Loc.encode ?_ ?_
  · intro l l' hl hl' heq
    obtain ⟨id, rfl⟩ := mailbox_of_prefix hl
    obtain ⟨id', rfl⟩ := mailbox_of_prefix hl'
    have hid : id = id' := by simpa [Loc.encode, Key.encode] using heq
    rw [hid]
  · intro l hl
    obtain ⟨id, rfl⟩ := mailbox_of_prefix hl
    exact h id

end IrixMail.Mail
