import IrixMail.Mail.Read

/-!
# The phases of the mail operations

Every operation that files, changes or removes a message goes through the same
phases: it reads and draws numbers, then draws a change id, then commits one
batch. The lemmas of this module say so once for each operation, with what its
batch may hold; whatever is proved about runs is proved from them.
-/

namespace IrixMail.Mail
open Library Prog Store

/-- Reads, and draws from a number sequence. -/
def Quiet : Cmd → Prop
  | .get _ => True
  | .iterate _ => True
  | .counter _ => True
  | .blobGet _ => True
  | .blobModifiedAt _ => True
  | .blobHashes => True
  | .now => True
  | .addAndGet (.number _ _ _) n => n = 1
  | _ => False

section Parts
variable (env : Env)

variable (a : ℕ)

theorem yields_nextUid (m : Mailbox) : Yields Quiet (fun _ => True) (nextUid a m) :=
  leadsTo_exec (by rfl) fun _ => Yields.ret trivial

theorem yields_fileInto (ms : List Mailbox) (data : MessageData) :
    Yields Quiet (fun filed => filed.size = data.size) (fileInto a ms data) := by
  induction ms generalizing data with
  | nil => exact .ret rfl
  | cons m ms ih =>
    refine (yields_nextUid a m).bind fun uid _ => (ih _).mono fun filed h => ?_
    rw [h, MessageData.size_addMailbox]

theorem yields_usage : Yields Quiet (fun _ => True) (Quota.usage a) :=
  leadsTo_exec trivial fun _ => leadsTo_exec trivial fun _ => Yields.ret trivial

theorem yields_lookupThreads (ids : List String) :
    Yields Quiet (fun _ => True) (lookupThreads env a ids) := by
  induction ids with
  | nil => exact .ret trivial
  | cons id ids ih => exact leadsTo_exec trivial fun _ => ih.bind fun _ _ => .ret trivial

def ThreadOps (a : ℕ) (ops : List WriteOp) : Prop := ∀ op ∈ ops, ∃ x, op.loc = .thread a x

theorem threadOps_threadOps (threadId : ℕ) (ids : List String) (lookups : List (Option ℕ)) :
    ThreadOps a (threadOps env a threadId ids lookups) := by
  intro op hop
  obtain ⟨e, -, rfl⟩ := List.mem_map.1 hop
  exact ⟨_, rfl⟩

theorem yields_resolveThread (d : ℕ) (raw : Bytes) :
    Yields Quiet (fun r => ThreadOps a r.ops) (resolveThread env a d raw) :=
  (yields_lookupThreads env a _).bind fun _ _ => .ret (threadOps_threadOps env a _ _ _)

def PostingOps (a : ℕ) (ops : List WriteOp) : Prop :=
  ∀ op ∈ ops, ∃ k : Fts.TermKey, op.loc = .posting a .email k.1 k.2

theorem yields_readBitmap (k : Fts.TermKey) :
    Yields Quiet (fun _ => True) (Fts.readBitmap a .email k) :=
  leadsTo_exec trivial fun _ => Yields.ret trivial

theorem yields_editOps (edit : Finset ℕ → Fts.PostingEdit) (ks : List Fts.TermKey) :
    Yields Quiet (PostingOps a) (Fts.editOps a .email edit ks) := by
  induction ks with
  | nil => exact .ret (by simp [PostingOps])
  | cons k ks ih =>
    refine (yields_readBitmap a k).bind fun bitmap _ => ih.bind fun rest hrest => .ret ?_
    exact List.forall_mem_append.2 ⟨fun op hop => ⟨k, Fts.loc_of_mem_ops hop⟩, hrest⟩

theorem yields_allocateChangeId (c : Collection) :
    Yields Quiet (fun _ => True) (ChangeLog.allocateChangeId a c) :=
  leadsTo_exec (by rfl) fun _ => Yields.ret trivial

def VanishedOps (a : ℕ) (ops : List WriteOp) : Prop := ∀ op ∈ ops, ∃ n, op.loc = .vanished a n

theorem yields_pushVanishedOps (after before : List MailboxUid) :
    Yields Quiet (VanishedOps a) (pushVanishedOps a after before) := by
  induction before with
  | nil => exact .ret (by simp [VanishedOps])
  | cons entry before ih =>
    unfold pushVanishedOps
    split
    · exact ih
    · have hrecord : Yields Quiet (fun x => ∃ n, x.2.loc = .vanished a n)
          (ChangeLog.recordVanishedOp a entry.mailboxId entry.uid) :=
        (yields_allocateChangeId a .email).bind fun n _ => .ret ⟨n, rfl⟩
      exact hrecord.bind fun x hx => ih.bind fun rest hrest => .ret (List.forall_mem_cons.2 ⟨hx, hrest⟩)

theorem yields_removalIndexOps (d : ℕ) (hash : BlobHash) :
    Yields Quiet (PostingOps a) (removalIndexOps env a d hash) := by
  refine leadsTo_exec trivial fun body => ?_
  cases body with
  | none => exact Yields.ret (by simp [PostingOps])
  | some raw =>
    dsimp only
    cases messageText env raw with
    | error e => exact Yields.ret (by simp [PostingOps])
    | ok text => exact yields_editOps a _ _

end Parts

/-! ## The batches -/

def changeOp (a d n : ℕ) (kind : ChangeKind) : WriteOp := .set (.change a .email n) ⟨d, kind⟩

def filingBatch (a d n : ℕ) (metadata : MessageMetadata) (data : MessageData) (size : ℕ)
    (threading index : List WriteOp) : List WriteOp :=
  filingOps a d metadata data size threading index ++ [changeOp a d n .insert]

def updateBatch (a d n : ℕ) (data : MessageData) (vanished : List WriteOp) : List WriteOp :=
  [.set (.data a d) data] ++ vanished ++ [changeOp a d n .update]

def removalBatch (a d n size : ℕ) (linked vanished : List WriteOp) : List WriteOp :=
  linked ++ removalOps a d size vanished ++ [changeOp a d n .delete]

def Idle {α : Type} (q : Action α) : Prop := (∃ x, q = .ret x) ∨ ∃ e, q = .fail e

/-- Draw a change id for document `d`, commit `ops` with the change entry, go on as `k`. -/
def commitWith {α : Type} (a d : ℕ) (kind : ChangeKind) (ops : List WriteOp) (k : Action α) :
    Action α := do
  let x ← ChangeLog.recordOp a .email d kind
  exec (.batch (ops ++ [x.2]))
  k

variable (env : Env)

theorem commitMessage_leadsTo {α : Type} (a d : ℕ) (raw : Bytes) (metadata : MessageMetadata)
    (data : MessageData) (threading : List WriteOp) (k : Action α) :
    LeadsTo Quiet
      (fun q => ∃ index, PostingOps a index ∧
        q = commitWith a d .insert (filingOps a d metadata data raw.length threading index) k)
      (commitMessage env a d raw metadata data threading >>= fun _ => k) := by
  unfold commitMessage
  simp only [bind_assoc]
  refine (yields_editOps a _ _).leadsTo fun index hindex => .here ⟨index, hindex, ?_⟩
  simp only [commitWith]

/-- The body is in the blob store under `hash`, and the message is about to be
committed with metadata that names it. -/
def Files {α : Type} (a d : ℕ) (raw : Bytes) (hash : BlobHash) (q : Action α) : Prop :=
  ∃ metadata data threading o,
    q = (commitMessage env a d raw metadata data threading >>= fun _ => .ret o) ∧
      metadata.blobHash = hash ∧ data.size = asU32 raw.length ∧ ThreadOps a threading

/-- The body is about to be put into the blob store and the message filed with it. -/
def FilesBody {α : Type} (a d : ℕ) (raw : Bytes) (q : Action α) : Prop :=
  ∃ g, q = (exec (.blobPut raw) >>= g) ∧ ∀ hash, LeadsTo Quiet (Files env a d raw hash) (g hash)

theorem size_newData (raw : Bytes) (threadId receivedAt : ℕ) :
    (newData env raw threadId receivedAt).size = asU32 raw.length := rfl

theorem size_flagAttachment (raw : Bytes) (data : MessageData) :
    (flagAttachment env raw data).size = data.size := by
  unfold flagAttachment
  split
  · exact MessageData.size_addKeyword _ _
  · rfl

theorem size_foldl_addKeyword (flags : List Keyword) (data : MessageData) :
    (flags.foldl MessageData.addKeyword data).size = data.size := by
  induction flags generalizing data with
  | nil => rfl
  | cons flag flags ih => rw [List.foldl_cons, ih, MessageData.size_addKeyword]

theorem fileLocally_leadsTo (request : DeliveryRequest) (metadata : MessageMetadata)
    (inbox : Mailbox) :
    LeadsTo Quiet
      (fun q => Idle q ∨ FilesBody env request.account.mailId request.documentId request.raw q)
      (fileLocally env request metadata inbox) := by
  refine (yields_usage _).leadsTo fun usage _ => ?_
  dsimp only
  split
  · exact .here (.inl (.inl ⟨_, rfl⟩))
  · refine .here (.inr ⟨_, rfl, fun hash => ?_⟩)
    refine (yields_resolveThread env _ _ _).leadsTo fun threading hthreading => ?_
    refine (yields_fileInto _ _ _).leadsTo fun filed hfiled => .here ⟨_, _, _, _, rfl, rfl, ?_, hthreading⟩
    rw [size_foldl_addKeyword, hfiled, size_flagAttachment, size_newData]

theorem deliver_leadsTo (request : DeliveryRequest) :
    LeadsTo Quiet
      (fun q => Idle q ∨ FilesBody env request.account.mailId request.documentId request.raw q)
      (deliver env request) := by
  unfold deliver
  cases ingest env [] request.raw with
  | error e => exact .here (.inl (.inr ⟨e, rfl⟩))
  | ok metadata =>
    simp only [checked]
    split
    · exact .here (.inl (.inl ⟨_, rfl⟩))
    · split
      · exact .here (.inl (.inl ⟨_, rfl⟩))
      · cases findInbox request.mailboxes with
        | error e => exact .here (.inl (.inr ⟨e, rfl⟩))
        | ok inbox => exact fileLocally_leadsTo env request metadata inbox

theorem appendMessage_leadsTo (request : AppendRequest) :
    LeadsTo Quiet
      (fun q => Idle q ∨ FilesBody env request.account.mailId request.documentId request.raw q)
      (appendMessage env request) := by
  unfold appendMessage
  cases ingest env [] request.raw with
  | error e => exact .here (.inl (.inr ⟨e, rfl⟩))
  | ok metadata =>
    simp only [checked]
    refine (yields_usage _).leadsTo fun usage _ => ?_
    split
    · exact .here (.inl (.inl ⟨_, rfl⟩))
    · refine .here (.inr ⟨_, rfl, fun hash => ?_⟩)
      refine (yields_nextUid _ _).leadsTo fun uid _ => ?_
      refine (yields_resolveThread env _ _ _).leadsTo fun threading hthreading => ?_
      refine .here ⟨_, _, _, _, rfl, rfl, ?_, hthreading⟩
      rw [size_flagAttachment, size_foldl_addKeyword, MessageData.size_addMailbox, size_newData]

theorem updateMessage_eq (a d : ℕ) (mutate : Mutation) :
    updateMessage a d mutate = (exec (.get (.data a d)) >>= fun
      | none => .ret false
      | some original => checked (mutate original) >>= fun data =>
        pushVanishedOps a data.mailboxes original.mailboxes >>= fun vanished =>
          commitWith a d .update ([.set (.data a d) data] ++ vanished) (.ret true)) := by
  unfold updateMessage loadData
  congr 1
  funext r
  cases r <;> rfl

theorem deleteMessage_eq (a d : ℕ) :
    deleteMessage env a d = (exec (.get (.data a d)) >>= fun
      | none => .ret false
      | some data => exec (.get (.metadata a d)) >>= fun metadata =>
        removalMetadataOps env a d metadata >>= fun linked =>
          pushVanishedOps a [] data.mailboxes >>= fun vanished =>
            commitWith a d .delete (linked ++ removalOps a d data.size vanished)
              (releaseAfter metadata >>= fun _ => .ret true)) := by
  unfold deleteMessage loadData loadMetadata
  congr 1
  funext r
  cases r <;> rfl

end IrixMail.Mail
