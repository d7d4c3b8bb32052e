import IrixMail.Imap.Session
import IrixMail.Mail.Touches

/-!
# Commands of a session

Each command is carried out as a whole before the next one is read; what it gives
back is the lines it writes and the session after it.
-/

namespace IrixMail.Imap
open Library Prog Store Mail Directory

variable (env : Env)

namespace Session
variable (s : Session)

/-! ## STORE -/

def isModified (modseqs : Option (List ChangeLogEntry)) (calculable : Bool)
    (unchangedSince : Option ℕ) (x : Numbered) : Bool :=
  unchangedSince.any fun since =>
    !calculable || since < ((modseqs.bind (modseqOf · x.entry.documentId)).getD 1)

def storeLine (reportModseq uidMode : Bool) (modseqs : Option (List ChangeLogEntry))
    (results : List UpdatedMessage) (x : Numbered) : Option Line :=
  (results.find? fun updated => updated.documentId = x.entry.documentId).map fun updated =>
    let entry : MessageCacheEntry := ⟨x.entry.documentId, [], updated.data.keywords, 0, 0, 0, 0⟩
    let known := (modseqs.bind (modseqOf · x.entry.documentId)).getD 1
    if reportModseq then
      fetchLine x.seqno x.uid entry [.flags, .modseq] uidMode (some (updated.changeId.getD known))
    else fetchLine x.seqno x.uid entry [.flags] uidMode none

def applyStore (ranges : List SeqRange) (op : StoreOp) (uidMode : Bool)
    (unchangedSince : Option ℕ) : Action (List Line × List ℕ) :=
  s.inSelected ([], []) fun mailbox => do
    let members ← s.members mailbox.id
    let reportModseq := unchangedSince.isSome || s.condstore
    let modseqs ← s.modseqsFor reportModseq
    let calculable ← match unchangedSince with
      | some since => ChangeLog.canCalculate s.accountId .email since
      | none => pure true
    let hits := addressed ranges uidMode members
    let modified := hits.filter (isModified modseqs calculable unchangedSince)
    let targets := hits.filter fun x => !isModified modseqs calculable unchangedSince x
    let results ← updateMessages s.accountId (targets.map fun x => x.entry.documentId)
      fun _ data => .ok { data with keywords := desiredKeywords data.keywords op }
    let lines := if op.silent then []
      else targets.filterMap (storeLine reportModseq uidMode modseqs results)
    pure (lines, modified.map fun x => if uidMode then x.uid else x.seqno)

def storeLabel (uidMode : Bool) : String := if uidMode then "UID STORE" else "STORE"

def runStore (ranges : List SeqRange) (op : StoreOp) (uidMode : Bool)
    (unchangedSince : Option ℕ) : Action (List Line × Session) := do
  let s := { s with condstore := s.condstore || unchangedSince.isSome }
  match ← caught (s.applyStore ranges op uidMode unchangedSince) with
  | .ok (lines, modified) =>
    let code := if modified.isEmpty then none else some (.modified (compressSequence modified))
    pure (lines ++ [.tagged .ok code (storeLabel uidMode ++ " completed")], s)
  | .error _ => pure ([refusal (storeLabel uidMode ++ " failed")], s)

/-! ## COPY and MOVE -/

structure CopyResult where
  expunges : List Line := []
  srcUids : List ℕ := []
  dstUids : List ℕ := []

/-- A message enters the target mailbox, unless it is already there, and with MOVE it
leaves its source. The result is its UID in the target. -/
def copyOne (a sourceId targetId : ℕ) (moveMode : Bool) (entry : MessageCacheEntry) : Action ℕ :=
  match entry.uidIn targetId with
  | some dstUid => do
    if moveMode then do
      let _ ← updateMessage a entry.documentId fun data => .ok (data.removeMailbox sourceId)
      pure dstUid
    else pure dstUid
  | none => do
    let dstUid ← nextUidIn a targetId
    let _ ← updateMessage a entry.documentId fun data =>
      let data := data.addMailbox targetId dstUid
      .ok (if moveMode then data.removeMailbox sourceId else data)
    pure dstUid

def copyEach (a sourceId targetId : ℕ) (moveMode : Bool) : List Numbered → Action (List ℕ)
  | [] => pure []
  | x :: xs => do
    let uid ← copyOne a sourceId targetId moveMode x.entry
    let uids ← copyEach a sourceId targetId moveMode xs
    pure (uid :: uids)

def copyApply (ranges : List SeqRange) (target : Mailbox) (uidMode moveMode : Bool) :
    Action CopyResult :=
  s.inSelected {} fun source => do
    let members ← s.members source.id
    let selected := addressed ranges uidMode members
    let dstUids ← copyEach s.accountId source.id target.id moveMode selected
    let seqnos := (selected.map Numbered.seqno).insertionSort (· ≤ ·)
    pure ⟨if moveMode then expungeLines seqnos else [], selected.map Numbered.uid, dstUids⟩

def copyLabel : Bool → Bool → String
  | true, true => "UID MOVE"
  | true, false => "UID COPY"
  | false, true => "MOVE"
  | false, false => "COPY"

def selectedId : Action (Option ℕ) := s.inSelected none fun mailbox => pure (some mailbox.id)

def runCopy (ranges : List SeqRange) (targetName : String) (uidMode moveMode : Bool) :
    Action (List Line) := do
  match ← s.mailboxNamed targetName with
  | none => pure [.tagged .no (some .tryCreate) "target mailbox does not exist"]
  | some target => do
    let source ← s.selectedId
    if source = some target.id then
      pure [.tagged .no (some .cannot) "source and destination mailboxes are the same"]
    else do
      let result ← s.copyApply ranges target uidMode moveMode
      let code := if result.srcUids.isEmpty then none
        else some (Code.copyUid target.uidValidity result.srcUids result.dstUids)
      let completed := copyLabel uidMode moveMode ++ " completed"
      if moveMode then
        pure ((code.map (Line.okay · "Copied UIDs")).toList ++ result.expunges ++ [done completed])
      else pure [.tagged .ok code completed]

/-! ## EXPUNGE -/

def expungeEach (a mailboxId : ℕ) : List Numbered → Action Unit
  | [] => pure ()
  | x :: xs => do
    leaveMailbox env a mailboxId x.entry.documentId x.entry.mailboxes.length
      (MessageData.removeKeyword · .deleted)
    expungeEach a mailboxId xs

def expungeable (ranges : Option (List SeqRange)) (members : List (ℕ × MessageCacheEntry)) :
    List Numbered :=
  (numbered members).filter fun x => x.entry.hasKeyword .deleted &&
    ranges.all fun ranges => sequenceContains ranges x.uid (uidMax members)

def applyExpunge (ranges : Option (List SeqRange)) : Action (List Line) :=
  s.inSelected [] fun mailbox => do
    let members ← s.members mailbox.id
    let selected := expungeable ranges members
    expungeEach env s.accountId mailbox.id selected
    if s.qresync then
      pure (if selected.isEmpty then []
        else [.vanished false (compressSequence (selected.map Numbered.uid))])
    else pure (expungeLines (selected.map Numbered.seqno))

def expungeLabel (ranges : Option (List SeqRange)) : String :=
  if ranges.isSome then "UID EXPUNGE completed" else "EXPUNGE completed"

def runExpunge (ranges : Option (List SeqRange)) : Action (List Line) := do
  let lines ← s.applyExpunge env ranges
  pure (lines ++ [done (expungeLabel ranges)])

/-! ## Mailboxes -/

def runCreate (name : String) : Action (List Line) :=
  if name = "" then pure [.tagged .bad none "CREATE expects a mailbox name"]
  else do
    match ← s.mailboxNamed name with
    | some _ => pure [refusal "mailbox already exists"]
    | none => do
      let _ ← createMailbox s.accountId name (assignUidValidity s.account.createdAt)
      pure [done "CREATE completed"]

def runDelete (name : String) : Action (List Line) := do
  match ← s.mailboxNamed name with
  | none => pure [refusal "mailbox does not exist"]
  | some mailbox =>
    if mailbox.id < firstUserMailboxId then pure [refusal "cannot delete a system mailbox"]
    else do
      let _ ← deleteMailbox env s.accountId mailbox.id true
      pure [done "DELETE completed"]

def runRename (source target : String) : Action (List Line) := do
  match ← s.mailboxNamed source with
  | none => pure [refusal "mailbox does not exist"]
  | some mailbox =>
    if mailbox.id < firstUserMailboxId then pure [refusal "cannot rename a system mailbox"]
    else if target = "" then pure [.tagged .bad none "RENAME expects a target name"]
    else do
      match ← s.mailboxNamed target with
      | some _ => pure [refusal "target mailbox already exists"]
      | none => do
        let _ ← renameMailbox s.accountId mailbox.id target
        pure [done "RENAME completed"]

structure AppendGroup where
  flags : List Keyword
  internalDate : Option ℕ
  message : Bytes

def appendOne (mailbox : Mailbox) (group : AppendGroup) : Action (Option ℕ) := do
  let documentId ← allocateDocumentId s.accountId
  let receivedAt ← match group.internalDate with
    | some date => pure date
    | none => exec .now
  let outcome ← appendMessage env
    ⟨s.account, mailbox, group.flags, receivedAt, documentId, group.message⟩
  pure (if outcome.overQuota then none else some outcome.uid)

/-- The UIDs of the messages, or none when one of them is over quota; those before it
stay. -/
def appendEach (mailbox : Mailbox) : List AppendGroup → Action (Option (List ℕ))
  | [] => pure (some [])
  | group :: groups => do
    match ← s.appendOne env mailbox group with
    | none => pure none
    | some uid => do
      let uids ← appendEach mailbox groups
      pure (uids.map (uid :: ·))

def runAppend (name : String) (groups : List AppendGroup) : Action (List Line) := do
  match ← s.mailboxNamed name with
  | none => pure [.tagged .no (some .tryCreate) "mailbox does not exist"]
  | some mailbox => do
    match ← s.appendEach env mailbox groups with
    | none => pure [.tagged .no (some .overQuota) "not enough storage"]
    | some uids => pure [.tagged .ok (some (.appendUid mailbox.uidValidity (compressSequence uids)))
        "APPEND completed"]

/-! ## SELECT -/

def selectResponses (view : SelectView) (readOnly : Bool) : List Line :=
  [.existing view.existing, .recent view.recent] ++ (view.unseen.map Line.unseen).toList ++
    [.uidValidity view.uidValidity, .uidNext view.uidNext,
      .highestModseq (max view.highestModseq 1), .flags, .permanentFlags readOnly]

def runSelect (name : String) (params : SelectParams) (examine : Bool) :
    Action (List Line × Session) := do
  match ← s.mailboxNamed name with
  | none => pure ([refusal "mailbox does not exist"], s)
  | some mailbox =>
    if params.qresync.isSome && !s.qresync then
      pure ([.tagged .bad none "QRESYNC has not been enabled"], s)
    else do
      let s := { s with condstore := s.condstore || params.condstore }
      let view ← s.selectView mailbox
      let replay ← match params.qresync with
        | some qresync => s.qresyncReplay mailbox qresync
        | none => pure []
      pure (selectResponses view examine ++ replay ++
          [if examine then .tagged .ok (some .readOnly) "EXAMINE completed"
            else .tagged .ok (some .readWrite) "SELECT completed"],
        { s with
          mailbox := some (displayName mailbox)
          state := .selected
          readOnly := examine
          lastExists := some view.existing })

/-! ## Dispatch -/

def fetchLabel (uidMode : Bool) : String := if uidMode then "UID FETCH" else "FETCH"

def runFetch (ranges : List SeqRange) (items : List FetchItem) (uidMode : Bool)
    (mods : Option FetchMods) : Action (List Line × Session) :=
  if mods.any fun m => m.vanished && (!uidMode || !s.qresync) then
    pure ([.tagged .bad none "VANISHED requires QRESYNC and UID FETCH"], s)
  else do
    let items := if mods.isSome && !items.contains .modseq then items ++ [.modseq] else items
    let s := { s with condstore := s.condstore || items.contains .modseq }
    let lines ← s.fetchLines ranges items uidMode mods
    pure (lines ++ [done (fetchLabel uidMode ++ " completed")], s)

end Session

/-- A command that is not about the messages: it writes no record of one, nor their log,
and the mailbox stays open as it is. -/
structure SideCommand where
  run : Session → Action (List Line × Session)
  aside : ∀ s, Obeys Aside (fun _ => True) (fun _ _ => True) [] (run s)
  stays : ∀ s, Returns (fun r => r.2.state = s.state ∧ r.2.readOnly = s.readOnly) (run s)

inductive Command
  | noop
  | check
  | enable (condstore qresync : Bool)
  | select (name : String) (params : SelectParams) (examine : Bool)
  | create (name : String)
  | delete (name : String)
  | rename (source target : String)
  | append (name : String) (groups : List Session.AppendGroup)
  | fetch (ranges : List SeqRange) (items : List FetchItem) (uidMode : Bool)
      (mods : Option FetchMods)
  | store (ranges : List SeqRange) (op : StoreOp) (uidMode : Bool) (unchangedSince : Option ℕ)
  | copy (ranges : List SeqRange) (target : String) (uidMode moveMode : Bool)
  | expunge (ranges : Option (List SeqRange))
  | close
  | unselect
  /-- LIST, LSUB, SUBSCRIBE, UNSUBSCRIBE, STATUS, SEARCH, SORT, THREAD, IDLE, NAMESPACE,
  GETQUOTA, GETQUOTAROOT, ID and CAPABILITY. -/
  | side (command : SideCommand)

def selectFirst : Line := refusal "Select a mailbox first"
def readOnlyRefusal : Line := refusal "not permitted on a read-only mailbox"

namespace Session
variable (s : Session)

def whenSelected (p : Action (List Line × Session)) : Action (List Line × Session) :=
  if s.state ≠ .selected then pure ([selectFirst], s) else p

def whenWritable (p : Action (List Line × Session)) : Action (List Line × Session) :=
  s.whenSelected (if s.readOnly then pure ([readOnlyRefusal], s) else p)

def leave : Session := { s with mailbox := none, state := .authenticated }

def keep (p : Action (List Line)) : Action (List Line × Session) := do
  let lines ← p
  pure (lines, s)

def dispatch : Command → Action (List Line × Session)
  | .noop => do
    let (lines, s) ← s.pushNewMail
    pure (lines ++ [done "NOOP completed"], s)
  | .check => s.whenSelected do
    let (lines, s) ← s.pushNewMail
    pure (lines ++ [done "CHECK completed"], s)
  | .enable condstore qresync =>
    pure ([.enabled condstore qresync, done "ENABLE completed"],
      { s with condstore := s.condstore || condstore, qresync := s.qresync || qresync })
  | .select name params examine => s.runSelect name params examine
  | .create name => s.keep (s.runCreate name)
  | .delete name => s.keep (s.runDelete env name)
  | .rename source target => s.keep (s.runRename source target)
  | .append name groups => s.keep (s.runAppend env name groups)
  | .fetch ranges items uidMode mods => s.whenSelected (s.runFetch ranges items uidMode mods)
  | .store ranges op uidMode unchangedSince =>
    s.whenWritable (s.runStore ranges op uidMode unchangedSince)
  | .copy ranges target uidMode false =>
    s.whenSelected (s.keep (s.runCopy ranges target uidMode false))
  | .copy ranges target uidMode true =>
    s.whenWritable (s.keep (s.runCopy ranges target uidMode true))
  | .expunge ranges => s.whenWritable (s.keep (s.runExpunge env ranges))
  | .close => s.whenSelected do
    let _ ← if s.readOnly then pure [] else s.applyExpunge env none
    pure ([done "CLOSE completed"], s.leave)
  | .unselect => s.whenSelected (pure ([done "UNSELECT completed"], s.leave))
  | .side command => command.run s

end Session
end IrixMail.Imap
