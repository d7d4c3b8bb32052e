import IrixMail.Imap.Sequence
import IrixMail.Mail.Mailboxes

/-!
# An IMAP session

A session after its login, with what it keeps between commands. It keeps no list of
the messages it has shown: every command reads the mailbox anew and numbers the
messages in the order of their UIDs.
-/

namespace IrixMail.Imap
open Library Prog Store Mail Directory

/-! ## Lines -/

inductive Status
  | ok
  | no
  | bad
  deriving DecidableEq

inductive FetchPart
  | flags (keywords : List Keyword)
  | modseq (value : ℕ)
  | uid (value : ℕ)
  | size (value : ℕ)
  | internalDate (receivedAt : ℕ)
  | other (item : String)
  deriving DecidableEq

inductive Code
  | readOnly
  | readWrite
  | copyUid (uidValidity : ℕ) (src dst : List ℕ)
  | appendUid (uidValidity : ℕ) (uids : String)
  | modified (numbers : String)
  | tryCreate
  | cannot
  | overQuota
  deriving DecidableEq

inductive Line
  /-- `* n EXISTS` -/
  | existing (count : ℕ)
  | recent (count : ℕ)
  | unseen (seqno : ℕ)
  | uidValidity (value : ℕ)
  | uidNext (value : ℕ)
  | highestModseq (value : ℕ)
  | flags
  | permanentFlags (readOnly : Bool)
  | expunge (seqno : ℕ)
  | vanished (earlier : Bool) (uids : String)
  | fetch (seqno : ℕ) (parts : List FetchPart)
  | okay (code : Code) (text : String)
  | enabled (condstore qresync : Bool)
  | tagged (status : Status) (code : Option Code) (text : String)
  deriving DecidableEq

def done (text : String) : Line := .tagged .ok none text
def refusal (text : String) : Line := .tagged .no none text

/-! ## State -/

inductive State
  | authenticated
  | selected
  deriving DecidableEq

structure Session where
  account : Account
  state : State := .authenticated
  mailbox : Option String := none
  lastExists : Option ℕ := none
  readOnly : Bool := false
  condstore : Bool := false
  qresync : Bool := false

def displayName (mailbox : Mailbox) : String :=
  if mailbox.role = .inbox then "INBOX" else mailbox.name

def isNamed (name : String) (mailbox : Mailbox) : Bool :=
  displayName mailbox == name ||
    (eqIgnoreAsciiCase (displayName mailbox) "INBOX" && eqIgnoreAsciiCase name "INBOX")

structure SelectView where
  existing : ℕ
  recent : ℕ
  unseen : Option ℕ
  uidNext : ℕ
  uidValidity : ℕ
  highestModseq : ℕ

structure QresyncParam where
  uidValidity : ℕ
  modseq : ℕ
  knownUids : Option (List SeqRange)

structure SelectParams where
  condstore : Bool := false
  qresync : Option QresyncParam := none

structure FetchMods where
  changedSince : ℕ
  vanished : Bool

inductive FetchItem
  | flags
  | modseq
  | uid
  | rfc822Size
  | internalDate
  /-- An item read off the message; fetching some of them marks it as seen. -/
  | other (name : String) (setsSeen : Bool)
  deriving DecidableEq

def FetchItem.isSeenSetting : FetchItem → Bool
  | other _ setsSeen => setsSeen
  | _ => false

inductive StoreMode
  | replace
  | add
  | remove
  deriving DecidableEq

structure StoreOp where
  mode : StoreMode
  silent : Bool
  flags : List Keyword

def pushKeyword (out : List Keyword) (keyword : Keyword) : List Keyword :=
  if keyword ∈ out then out else out ++ [keyword]

def desiredKeywords (current : List Keyword) (op : StoreOp) : List Keyword :=
  let incoming := op.flags.filter (· ≠ .recent)
  match op.mode with
  | .replace => incoming.foldl pushKeyword []
  | .add => incoming.foldl pushKeyword current
  | .remove => current.filter (· ∉ incoming)

/-! ## Reading a mailbox -/

structure Numbered where
  seqno : ℕ
  uid : ℕ
  entry : MessageCacheEntry

def numbered (members : List (ℕ × MessageCacheEntry)) : List Numbered :=
  members.zipIdx.map fun x => ⟨x.2 + 1, x.1.1, x.1.2⟩

def uidMax (members : List (ℕ × MessageCacheEntry)) : ℕ := (members.getLast?.map Prod.fst).getD 0

def addressed (ranges : List SeqRange) (uidMode : Bool)
    (members : List (ℕ × MessageCacheEntry)) : List Numbered :=
  (numbered members).filter fun x =>
    if uidMode then sequenceContains ranges x.uid (uidMax members)
    else sequenceContains ranges x.seqno members.length

def firstUnseenSeqno (members : List (ℕ × MessageCacheEntry)) : Option ℕ :=
  ((numbered members).find? fun x => !x.entry.hasKeyword .seen).map Numbered.seqno

def modseqMap (a : ℕ) : Action (List ChangeLogEntry) := ChangeLog.changesSince a .email 0

def modseqOf (changes : List ChangeLogEntry) (documentId : ℕ) : Option ℕ :=
  (changes.reverse.find? fun change => change.documentId = documentId).map ChangeLogEntry.changeId

def fetchPart (uid : ℕ) (entry : MessageCacheEntry) (modseq : Option ℕ) : FetchItem → FetchPart
  | .flags => .flags entry.keywords
  | .modseq => .modseq (modseq.getD 1)
  | .uid => .uid uid
  | .rfc822Size => .size entry.size
  | .internalDate => .internalDate entry.receivedAt
  | .other name _ => .other name

def fetchLine (seqno uid : ℕ) (entry : MessageCacheEntry) (items : List FetchItem)
    (uidMode : Bool) (modseq : Option ℕ) : Line :=
  let parts := items.map (fetchPart uid entry modseq)
  .fetch seqno (if uidMode && !items.contains .uid then .uid uid :: parts else parts)

/-- The untagged lines that tell of messages taken away: each number counts those
before it out. -/
def expungeLines (seqnos : List ℕ) : List Line :=
  seqnos.zipIdx.map fun x => .expunge (x.1 - x.2)

variable (env : Env)

namespace Session
variable (s : Session)

def accountId : ℕ := s.account.mailId

def mailboxes : Action (List Mailbox) := do
  let provisioned := provisionMailboxes s.account.createdAt
  match ← caught (loadMailboxes s.accountId) with
  | .ok persisted => pure (provisioned ++ persisted.filter fun m => firstUserMailboxId ≤ m.id)
  | .error _ => pure provisioned

def mailboxNamed (name : String) : Action (Option Mailbox) := do
  let mailboxes ← s.mailboxes
  pure (mailboxes.find? (isNamed name))

def inSelected {α : Type} (otherwise : α) (f : Mailbox → Action α) : Action α :=
  match s.mailbox with
  | none => pure otherwise
  | some name => do
    match ← s.mailboxNamed name with
    | none => pure otherwise
    | some mailbox => f mailbox

def members (mailboxId : ℕ) : Action (List (ℕ × MessageCacheEntry)) := do
  let entries ← MessageStoreCache.entriesOf s.accountId
  pure (membersOf mailboxId entries)

def highestModseqValue : Action ℕ := do
  match ← caught (ChangeLog.latestChangeId s.accountId .email) with
  | .ok latest => pure (max latest 1)
  | .error _ => pure 1

def selectView (mailbox : Mailbox) : Action SelectView := do
  let members ← s.members mailbox.id
  let last ← lastUid s.accountId mailbox.id
  let highest ← s.highestModseqValue
  pure ⟨members.length, 0, firstUnseenSeqno members, last + 1, mailbox.uidValidity, highest⟩

def pushNewMail : Action (List Line × Session) :=
  if s.state ≠ .selected then pure ([], s)
  else
    s.inSelected ([], s) fun mailbox => do
      let view ← s.selectView mailbox
      if s.lastExists.all (· < view.existing) then
        pure ([.existing view.existing, .recent view.recent],
          { s with lastExists := some view.existing })
      else pure ([], s)

/-! ## QRESYNC -/

def replayItems : List FetchItem := [.uid, .flags, .modseq]

def replayChanged (since : ℕ) (changes : List ChangeLogEntry)
    (members : List (ℕ × MessageCacheEntry)) : List Line :=
  (numbered members).filterMap fun x =>
    let modseq := (modseqOf changes x.entry.documentId).getD 1
    if modseq ≤ since then none
    else some (fetchLine x.seqno x.uid x.entry replayItems false (some modseq))

def vanishedLines (uids : List ℕ) : List Line :=
  if uids.isEmpty then [] else [.vanished true (compressSequence uids)]

def knownOnly (known : Option (List SeqRange)) (uids : List ℕ) : List ℕ :=
  match known with
  | none => uids
  | some ranges => uids.filter fun uid => sequenceContains ranges uid (uids.max?.getD 0)

def vanishedFrom (mailboxId : ℕ) (entries : List VanishedEntry) : List ℕ :=
  (entries.filter fun entry => entry.mailboxId = mailboxId).map VanishedEntry.uid

def qresyncReplay (mailbox : Mailbox) (qresync : QresyncParam) : Action (List Line) :=
  if qresync.uidValidity ≠ mailbox.uidValidity then pure []
  else do
    let entries ← ChangeLog.vanishedSince s.accountId qresync.modseq
    let vanished := knownOnly qresync.knownUids (vanishedFrom mailbox.id entries)
    let changes ← modseqMap s.accountId
    let members ← s.members mailbox.id
    pure (vanishedLines vanished ++ replayChanged qresync.modseq changes members)

/-! ## FETCH -/

def withFlags (items : List FetchItem) : List FetchItem :=
  if items.contains .flags then items else items ++ [.flags]

def fetchOne (items : List FetchItem) (uidMode setsSeen : Bool)
    (modseqs : Option (List ChangeLogEntry)) (changedFloor : Option ℕ) (x : Numbered) :
    Action (List Line) := do
  let modseq := modseqs.map fun changes => (modseqOf changes x.entry.documentId).getD 1
  if changedFloor.any (modseq.getD 1 ≤ ·) then pure []
  else if setsSeen && !x.entry.hasKeyword .seen then do
    let _ ← updateMessage s.accountId x.entry.documentId fun data => .ok (data.addKeyword .seen)
    let updated := { x.entry with keywords := x.entry.keywords ++ [.seen] }
    pure [fetchLine x.seqno x.uid updated (withFlags items) uidMode modseq]
  else pure [fetchLine x.seqno x.uid x.entry items uidMode modseq]

def fetchEach (items : List FetchItem) (uidMode setsSeen : Bool)
    (modseqs : Option (List ChangeLogEntry)) (changedFloor : Option ℕ) :
    List Numbered → Action (List Line)
  | [] => pure []
  | x :: xs => do
    let line ← s.fetchOne items uidMode setsSeen modseqs changedFloor x
    let lines ← fetchEach items uidMode setsSeen modseqs changedFloor xs
    pure (line ++ lines)

def changedFloorOf : Option FetchMods → Action (Option ℕ)
  | none => pure none
  | some mods => do
    let calculable ← ChangeLog.canCalculate s.accountId .email mods.changedSince
    pure (if calculable then some mods.changedSince else none)

def fetchVanished (mailbox : Mailbox) (ranges : List SeqRange) (largest : ℕ) :
    Option FetchMods → Action (List Line)
  | none => pure []
  | some mods =>
    if !mods.vanished then pure []
    else do
      let entries ← ChangeLog.vanishedSince s.accountId mods.changedSince
      let uids := vanishedFrom mailbox.id entries
      pure (vanishedLines (uids.filter fun uid =>
        sequenceContains ranges uid (max largest (uids.max?.getD 0))))

def modseqsFor (wanted : Bool) : Action (Option (List ChangeLogEntry)) :=
  if wanted then do
    let changes ← modseqMap s.accountId
    pure (some changes)
  else pure none

def fetchLines (ranges : List SeqRange) (items : List FetchItem) (uidMode : Bool)
    (mods : Option FetchMods) : Action (List Line) :=
  s.inSelected [] fun mailbox => do
    let members ← s.members mailbox.id
    let setsSeen := !s.readOnly && items.any FetchItem.isSeenSetting
    let modseqs ← s.modseqsFor (items.contains .modseq || mods.isSome)
    let changedFloor ← s.changedFloorOf mods
    let vanished ← s.fetchVanished mailbox ranges (uidMax members) mods
    let lines ← s.fetchEach items uidMode setsSeen modseqs changedFloor
      (addressed ranges uidMode members)
    pure (vanished ++ lines)

end Session
end IrixMail.Imap
