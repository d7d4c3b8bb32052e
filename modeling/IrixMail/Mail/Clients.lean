import IrixMail.Mail.Batches
import IrixMail.Store.Histories

/-!
# Mail operations among others

What a mail operation commits depends on what it has read and drawn before.
`MailOp.Allows` says how, for each operation, in terms of its own trace; every
operation obeys it whatever the others do in between. The results on concurrent
runs use this and nothing else of the programs.
-/

namespace IrixMail.Mail
open Library Prog Store List

/-- The change id was drawn from the sequence of the collection. -/
def Drew (a : ℕ) (c : Collection) (n : ℕ) (t : Trace sig) : Prop :=
  ∃ r : ℤ, (⟨.addAndGet (.number a c 0) 1, r⟩ : Access) ∈ t ∧ n = (max r 1).toNat

def Commit : Access → Prop
  | ⟨.batch _, _⟩ => True
  | ⟨.batchConditional _ _, committed⟩ => committed = true
  | _ => False

def Uncommitted (t : Trace sig) : Prop := ∀ x ∈ t, ¬ Commit x

def owedBlobs : Trace sig → List BlobHash
  | [] => []
  | ⟨.batch ops, _⟩ :: t => unlinkedBlobs ops ++ owedBlobs t
  | ⟨.addAndGet (.refCount h) _, _⟩ :: t => (owedBlobs t).erase h
  | _ :: t => owedBlobs t

def EditsRead (a : ℕ) (edit : Finset ℕ → Fts.PostingEdit) (ks : List Fts.TermKey)
    (t : Trace sig) (ops : List WriteOp) : Prop :=
  ∃ read : List (Fts.TermKey × Option (Finset ℕ)), read.map Prod.fst = ks ∧
    (∀ x ∈ read, Got (.posting a .email x.1.1 x.1.2) x.2 t) ∧
    ops = read.flatMap fun x => (edit (x.2.getD ∅)).ops a .email x.1

variable (env : Env)

def bodyKeys (raw : Bytes) : List Fts.TermKey :=
  Fts.termKeys env.unicode ((messageText env raw).toOption.getD {}).entries

structure FilingCommit (a d : ℕ) (raw : Bytes) (t : Trace sig) (metadata : MessageMetadata)
    (data : MessageData) (ops : List WriteOp) : Prop where
  stored : (⟨.blobPut raw, metadata.blobHash⟩ : Access) ∈ t
  size : data.size = asU32 raw.length
  uncommitted : Uncommitted t
  ops : ∃ threading index n, ThreadOps a threading ∧
    EditsRead a (Fts.insertEdit d) (bodyKeys env raw) t index ∧ Drew a .email n t ∧
    ops = filingBatch a d n metadata data raw.length threading index

structure UpdateCommit (a d : ℕ) (mutate : Mutation) (t : Trace sig) (original data : MessageData)
    (ops : List WriteOp) : Prop where
  read : Got (.data a d) (some original) t
  mutated : mutate original = .ok data
  uncommitted : Uncommitted t
  ops : ∃ vanished n, VanishedOps a vanished ∧ Drew a .email n t ∧
    ops = updateBatch a d n data vanished

def UnlinksRead (a d : ℕ) (t : Trace sig) (linked : List WriteOp) :
    Option MessageMetadata → Prop
  | none => linked = []
  | some m => ∃ (body : Option Bytes) (index : List WriteOp),
      (⟨.blobGet m.blobHash, body⟩ : Access) ∈ t ∧
      EditsRead a (Fts.removeEdit d) (body.elim [] (bodyKeys env)) t index ∧
      linked = index ++ [accountLinkOp a m.blobHash (-1)]

structure RemovalCommit (a d : ℕ) (t : Trace sig) (data : MessageData)
    (held : Option MessageMetadata) (ops : List WriteOp) : Prop where
  read : Got (.data a d) (some data) t
  readMetadata : Got (.metadata a d) held t
  uncommitted : Uncommitted t
  ops : ∃ linked vanished n, UnlinksRead env a d t linked held ∧ VanishedOps a vanished ∧
    Drew a .email n t ∧ ops = removalBatch a d n data.size linked vanished

/-- What one attempt at an update of several messages has read and gathered. -/
inductive Attempted (a : ℕ) (mutate : ℕ → Mutation) (t : Trace sig) :
    List ℕ → UpdateAttempt → Prop
  | nil : Attempted a mutate t [] ⟨[], [], []⟩
  | absent {d : ℕ} {ds : List ℕ} {rest : UpdateAttempt} : Got (.data a d) none t →
      Attempted a mutate t ds rest → Attempted a mutate t (d :: ds) rest
  | unchanged {d : ℕ} {ds : List ℕ} {data : MessageData} {rest : UpdateAttempt} :
      Got (.data a d) (some data) t → mutate d data = .ok data → Attempted a mutate t ds rest →
      Attempted a mutate t (d :: ds) ⟨⟨d, none, data⟩ :: rest.results, rest.asserts, rest.ops⟩
  | changed {d : ℕ} {ds : List ℕ} {original data : MessageData} {vanished : List WriteOp} {n : ℕ}
      {rest : UpdateAttempt} :
      Got (.data a d) (some original) t → mutate d original = .ok data → data ≠ original →
      VanishedOps a vanished → Drew a .email n t → Attempted a mutate t ds rest →
      Attempted a mutate t (d :: ds) ⟨⟨d, some n, data⟩ :: rest.results,
        ⟨.data a d, some original⟩ :: rest.asserts,
        updateBatch a d n data vanished ++ rest.ops⟩

namespace MailOp

/-- The commands an operation may issue after its trace. -/
inductive Allows (t : Trace sig) : MailOp → Cmd → Prop
  | quiet {op : MailOp} {c : Cmd} : Quiet c → Allows t op c
  | put {op : MailOp} {a d : ℕ} {raw : Bytes} : op.Files a d raw → Uncommitted t →
      Allows t op (.blobPut raw)
  | file {op : MailOp} {a d : ℕ} {raw : Bytes} {metadata : MessageMetadata} {data : MessageData}
      {ops : List WriteOp} : op.Files a d raw → FilingCommit env a d raw t metadata data ops →
      Allows t op (.batch ops)
  | update {a d : ℕ} {mutate : Mutation} {original data : MessageData} {ops : List WriteOp} :
      UpdateCommit a d mutate t original data ops → Allows t (.update a d mutate) (.batch ops)
  | updates {a : ℕ} {ds : List ℕ} {mutate : ℕ → Mutation} {attempt : UpdateAttempt} :
      Uncommitted t → Attempted a mutate t ds attempt →
      Allows t (.updates a ds mutate) (.batchConditional attempt.asserts attempt.ops)
  | remove {a d : ℕ} {data : MessageData} {held : Option MessageMetadata} {ops : List WriteOp} :
      RemovalCommit env a d t data held ops → Allows t (.delete a d) (.batch ops)
  | release {a d : ℕ} {u : Trace sig} {data : MessageData} {held : MessageMetadata}
      {ops : List WriteOp} : RemovalCommit env a d u data (some held) ops →
      t = ⟨.batch ops, ()⟩ :: u →
      Allows t (.delete a d) (.addAndGet (.refCount held.blobHash) (-1))

def Returns (t : Trace sig) : MailOp → Reply → Prop
  | update _ _ _, reply => ∃ found, reply = .updated found ∧ (found = true ↔ ¬ Uncommitted t)
  | delete a d, reply => ∃ found, reply = .deleted found ∧ (found = true ↔ ¬ Uncommitted t) ∧
      (found = false → Got (.data a d) none t) ∧ owedBlobs t = []
  | updates a ds mutate, reply => ∃ messages asserts ops, reply = .updatedAll messages ∧
      Attempted a mutate t ds ⟨messages, asserts, ops⟩ ∧
      (ops = [] ∧ Uncommitted t ∨ (⟨.batchConditional asserts ops, true⟩ : Access) ∈ t)
  | _, _ => True

end MailOp

/-! ## Traces that grow -/

section Mono
variable {t u : Trace sig}

variable {a : ℕ} {x : Access}

theorem Drew.mono {c : Collection} {n : ℕ} (h : Drew a c n t) (htu : t ⊆ u) :
    Drew a c n u := by
  obtain ⟨r, hr, hn⟩ := h
  exact ⟨r, htu hr, hn⟩

theorem EditsRead.mono {edit : Finset ℕ → Fts.PostingEdit} {ks : List Fts.TermKey}
    {ops : List WriteOp} (h : EditsRead a edit ks t ops) (htu : t ⊆ u) :
    EditsRead a edit ks u ops := by
  obtain ⟨read, hks, hread, hops⟩ := h
  exact ⟨read, hks, fun x hx => htu (hread x hx), hops⟩

theorem Attempted.mono {mutate : ℕ → Mutation} {ds : List ℕ} {attempt : UpdateAttempt}
    (h : Attempted a mutate t ds attempt) (htu : t ⊆ u) : Attempted a mutate u ds attempt := by
  induction h with
  | nil => exact .nil
  | absent hread _ ih => exact .absent (htu hread) ih
  | unchanged hread hmutate _ ih => exact .unchanged (htu hread) hmutate ih
  | changed hread hmutate hne hvanished hn _ ih =>
    exact .changed (htu hread) hmutate hne hvanished (hn.mono htu) ih

theorem UnlinksRead.mono {env : Env} {d : ℕ} {linked : List WriteOp}
    {held : Option MessageMetadata} (h : UnlinksRead env a d t linked held) (htu : t ⊆ u) :
    UnlinksRead env a d u linked held := by
  cases held with
  | none => exact h
  | some m =>
    obtain ⟨body, index, hbody, hedits, hlinked⟩ := h
    exact ⟨body, index, htu hbody, hedits.mono htu, hlinked⟩

theorem not_commit_of_quiet (h : Quiet x.1) : ¬ Commit x := by
  obtain ⟨c, r⟩ := x
  cases c with
  | batch ops => exact h.elim
  | batchConditional asserts ops => exact h.elim
  | _ => exact id

theorem within_of_quiet {c : Cmd} (h : Quiet c) : WriteOp.Within [.number] c.writes := by
  cases c with
  | addAndGet k n =>
    cases k with
    | number a c d => exact WriteOp.within_nil.cons (by simp)
    | _ => exact h.elim
  | put l v => exact h.elim
  | delete l => exact h.elim
  | batch ops => exact h.elim
  | batchConditional asserts ops => exact h.elim
  | _ => exact WriteOp.within_nil

theorem uncommitted_nil : Uncommitted [] := by simp [Uncommitted]

theorem Uncommitted.cons (h : Uncommitted t) (hx : ¬ Commit x) :
    Uncommitted (x :: t) :=
  forall_mem_cons.2 ⟨hx, h⟩

theorem Uncommitted.append (h : Uncommitted t) (hu : ∀ x ∈ u, Quiet x.1) :
    Uncommitted (u ++ t) :=
  forall_mem_append.2 ⟨fun y hy => not_commit_of_quiet (hu y hy), h⟩

theorem Uncommitted.owedBlobs_eq (h : Uncommitted t) : owedBlobs t = [] := by
  induction t with
  | nil => rfl
  | cons x t ih =>
    have ht : owedBlobs t = [] := ih fun y hy => h y (mem_cons_of_mem _ hy)
    have hx := h x mem_cons_self
    obtain ⟨c, r⟩ := x
    cases c with
    | batch ops => exact absurd trivial hx
    | addAndGet k n =>
      cases k with
      | refCount hash =>
        rw [owedBlobs, ht]
        rfl
      | _ => exact ht
    | _ => exact ht

end Mono

variable {a d : ℕ} {ops : List WriteOp} {held : Option MessageMetadata}

variable {t : Trace sig}

theorem EditsRead.postingOps {edit : Finset ℕ → Fts.PostingEdit} {ks : List Fts.TermKey}
    (h : EditsRead a edit ks t ops) : PostingOps a ops := by
  obtain ⟨read, -, -, rfl⟩ := h
  intro op hop
  obtain ⟨x, -, hop⟩ := mem_flatMap.1 hop
  exact ⟨x.1, Fts.loc_of_mem_ops hop⟩

theorem UnlinksRead.unlinkOps {linked : List WriteOp} (h : UnlinksRead env a d t linked held) :
    UnlinkOps a held linked := by
  cases held with
  | none => exact h
  | some m =>
    obtain ⟨body, index, -, hedits, hlinked⟩ := h
    exact ⟨index, hedits.postingOps, hlinked⟩

theorem RemovalCommit.unlinkedBlobs_eq {data : MessageData}
    (h : RemovalCommit env a d t data held ops) :
    unlinkedBlobs ops = held.toList.map MessageMetadata.blobHash := by
  obtain ⟨linked, vanished, n, hlinked, hvanished, -, rfl⟩ := h.ops
  exact unlinkedBlobs_removalBatch (hlinked.unlinkOps env) hvanished


/-! ## Every operation obeys its guard -/

theorem obeys_editOps (a : ℕ) (edit : Finset ℕ → Fts.PostingEdit) (ks : List Fts.TermKey)
    (t : Trace sig) :
    Obeys (fun _ => Quiet) (fun _ => True) (fun v ops => EditsRead a edit ks v ops) t
      (Fts.editOps a .email edit ks) := by
  induction ks generalizing t with
  | nil => exact .ret ⟨[], rfl, by simp, rfl⟩
  | cons k ks ih =>
    unfold Fts.editOps Fts.readBitmap
    simp only [bind_assoc]
    refine .perform trivial fun r => (ih _).andThen ?_
    rintro v rest hv ⟨read, rfl, hread, rfl⟩
    exact .ret ⟨(k, r) :: read, rfl, forall_mem_cons.2 ⟨hv.subset mem_cons_self, hread⟩, rfl⟩

theorem removalIndexOps_eq (a d : ℕ) (hash : BlobHash) :
    removalIndexOps env a d hash = exec (.blobGet hash) >>= fun body =>
      Fts.editOps a .email (Fts.removeEdit d) (body.elim [] (bodyKeys env)) := by
  refine congrArg (exec (.blobGet hash) >>= ·) (funext fun body => ?_)
  cases body with
  | none => rfl
  | some raw =>
    dsimp only [Option.elim, bodyKeys]
    cases messageText env raw <;> rfl

theorem obeys_removalMetadataOps (a d : ℕ) (held : Option MessageMetadata) (t : Trace sig) :
    Obeys (fun _ => Quiet) (fun _ => True) (fun v linked => UnlinksRead env a d v linked held) t
      (removalMetadataOps env a d held) := by
  cases held with
  | none => exact .ret rfl
  | some m =>
    rw [removalMetadataOps, removalIndexOps_eq, bind_assoc]
    exact .perform trivial fun body => (obeys_editOps a _ _ _).andThen fun v index hv hedits =>
      .ret ⟨body, index, hv.subset mem_cons_self, hedits, rfl⟩

section Parts
variable {α : Type} {guard : Trace sig → Cmd → Prop} (hquiet : ∀ t c, Quiet c → guard t c)
include hquiet

variable {a d : ℕ} {ops : List WriteOp} {raw : Bytes} {mutate : ℕ → Mutation}

theorem obeys_commitWith {Q : Trace sig → α → Prop} {kind : ChangeKind}
    {k : Action α} (ht : Uncommitted t)
    (hcommit : ∀ n u, u = [⟨.addAndGet (.number a .email 0) 1, n⟩] ++ t → Uncommitted u →
      Drew a .email (max n 1).toNat u →
      guard u (.batch (ops ++ [changeOp a d (max n 1).toNat kind])) ∧
        Obeys guard Uncommitted Q (⟨.batch (ops ++ [changeOp a d (max n 1).toNat kind]), ()⟩ :: u) k) :
    Obeys guard Uncommitted Q t (commitWith a d kind ops k) := by
  unfold commitWith ChangeLog.recordOp ChangeLog.allocateChangeId
  simp only [bind_assoc]
  refine .perform (hquiet t _ rfl) fun n => ?_
  have hu : Uncommitted (⟨.addAndGet (.number a .email 0) 1, n⟩ :: t) := ht.cons (by exact id)
  obtain ⟨hguard, hk⟩ := hcommit n _ rfl hu ⟨n, mem_cons_self, rfl⟩
  exact .perform hguard fun _ => hk

theorem obeys_commitMessage {metadata : MessageMetadata}
    {data : MessageData} {threading : List WriteOp} {o : α}
    (hput : (⟨.blobPut raw, metadata.blobHash⟩ : Access) ∈ t)
    (hsize : data.size = asU32 raw.length) (hthread : ThreadOps a threading) (ht : Uncommitted t)
    (hallow : ∀ u ops, FilingCommit env a d raw u metadata data ops → guard u (.batch ops)) :
    Obeys guard Uncommitted (fun _ _ => True) t
      (commitMessage env a d raw metadata data threading >>= fun _ => .ret o) := by
  unfold commitMessage
  simp only [bind_assoc]
  refine ((obeys_editOps a _ _ t).quietly hquiet fun _ => ht.append).bind ?_
  rintro v index ⟨hedits, u, hu, rfl⟩
  refine obeys_commitWith hquiet (ht.append hu) ?_
  rintro n w rfl hw hn
  refine ⟨hallow _ _ ⟨?_, hsize, hw, threading, index, _, hthread, ?_, hn, rfl⟩, .ret trivial⟩
  · exact mem_append_right _ (mem_append_right _ hput)
  · exact hedits.mono (subset_append_right _ _)

theorem obeys_filing {p : Action α}
    (hp : LeadsTo Quiet (fun q => Idle q ∨ FilesBody env a d raw q) p)
    (hput : ∀ t, Uncommitted t → guard t (.blobPut raw))
    (hallow : ∀ u metadata data ops, FilingCommit env a d raw u metadata data ops →
      guard u (.batch ops)) :
    Obeys guard Uncommitted (fun _ _ => True) [] p := by
  refine hp.obeys hquiet fun u q hu hq => ?_
  have huncommitted : Uncommitted (u ++ []) := uncommitted_nil.append hu
  rcases hq with (⟨x, rfl⟩ | ⟨e, rfl⟩) | ⟨g, rfl, hg⟩
  · exact .ret trivial
  · exact .fail huncommitted
  · refine .perform (hput _ huncommitted) fun hash => ?_
    refine (hg hash).obeys hquiet fun v q hv hq => ?_
    obtain ⟨metadata, data, threading, o, rfl, rfl, hsize, hthread⟩ := hq
    refine obeys_commitMessage env hquiet ?_ hsize hthread ?_
      fun w ops hcommit => hallow w metadata data ops hcommit
    · exact mem_append_right _ mem_cons_self
    · exact (huncommitted.cons id).append hv

omit hquiet in
theorem not_uncommitted_of_batch {r : Unit} : ¬ Uncommitted (⟨.batch ops, r⟩ :: t) := fun h => h _ mem_cons_self trivial

theorem obeys_updateMessage (a d : ℕ) (mutate : Mutation)
    (hallow : ∀ u original data ops, UpdateCommit a d mutate u original data ops →
      guard u (.batch ops)) :
    Obeys guard Uncommitted (fun v found => found = true ↔ ¬ Uncommitted v) [] (updateMessage a d mutate) := by
  refine .perform (hquiet _ _ trivial) fun r => ?_
  have hread : Uncommitted [⟨.get (.data a d), r⟩] := uncommitted_nil.cons id
  cases r with
  | none => exact .ret (by simpa using hread)
  | some original =>
    dsimp only
    cases hmutate : mutate original with
    | error e => exact .fail hread
    | ok data =>
      refine ((yields_pushVanishedOps a data.mailboxes original.mailboxes).obeys hquiet _).bind ?_
      rintro v vanished ⟨hvanished, u, hu, rfl⟩
      refine obeys_commitWith hquiet (hread.append hu) ?_
      rintro n w rfl hw hn
      refine ⟨hallow _ original data _ ⟨?_, hmutate, hw, vanished, _, hvanished, hn, rfl⟩, ?_⟩
      · exact mem_append_right _ (mem_append_right _ mem_cons_self)
      · exact .ret ⟨fun _ => not_uncommitted_of_batch, fun _ => rfl⟩

theorem obeys_deleteMessage (a d : ℕ)
    (hallow : ∀ u data held ops, RemovalCommit env a d u data held ops → guard u (.batch ops))
    (hrelease : ∀ u data held ops, RemovalCommit env a d u data (some held) ops →
      guard (⟨.batch ops, ()⟩ :: u) (.addAndGet (.refCount held.blobHash) (-1))) :
    Obeys guard Uncommitted (fun v found => (found = true ↔ ¬ Uncommitted v) ∧
      (found = false → Got (.data a d) none v) ∧ owedBlobs v = []) [] (deleteMessage env a d) := by
  refine .perform (hquiet _ _ trivial) fun r => ?_
  have hread : Uncommitted [⟨.get (.data a d), r⟩] := uncommitted_nil.cons id
  cases r with
  | none => exact .ret ⟨by simpa using hread, fun _ => mem_cons_self, rfl⟩
  | some data =>
    refine .perform (hquiet _ _ trivial) fun held => ?_
    have hreads : Uncommitted [⟨.get (.metadata a d), held⟩, ⟨.get (.data a d), some data⟩] :=
      hread.cons id
    refine ((obeys_removalMetadataOps env a d held _).quietly hquiet fun _ => hreads.append).bind ?_
    rintro v linked ⟨hlinked, u, hu, rfl⟩
    refine ((yields_pushVanishedOps a [] data.mailboxes).obeys hquiet _).bind ?_
    rintro v vanished ⟨hvanished, u', hu', rfl⟩
    refine obeys_commitWith hquiet ((hreads.append hu).append hu') ?_
    rintro n w rfl hw hn
    have hcommit : RemovalCommit env a d _ data held
        (removalBatch a d (max n 1).toNat data.size linked vanished) :=
      ⟨by simp [Got], by simp [Got], hw, linked, vanished, _,
        hlinked.mono (subset_append_of_subset_right _ (subset_append_right _ _)),
        hvanished, hn, rfl⟩
    refine ⟨hallow _ data held _ hcommit, ?_⟩
    have howed := hw.owedBlobs_eq
    have hunlinked := hcommit.unlinkedBlobs_eq
    cases held with
    | none =>
      refine .ret ⟨⟨fun _ => not_uncommitted_of_batch, fun _ => rfl⟩, nofun, ?_⟩
      rw [owedBlobs, howed]
      exact (append_nil _).trans hunlinked
    | some m =>
      unfold releaseAfter releaseMessage
      simp only [bind_assoc]
      refine .perform (hrelease _ data m _ hcommit) fun _ =>
        .ret ⟨⟨fun _ h => ?_, fun _ => rfl⟩, nofun, ?_⟩
      · exact not_uncommitted_of_batch fun x hx => h x (mem_cons_of_mem _ hx)
      · rw [owedBlobs, owedBlobs, howed, append_nil]
        exact (congrArg (·.erase m.blobHash) hunlinked).trans (erase_cons_head _ _)

theorem obeys_updateOne (a d : ℕ) (ht : Uncommitted t) :
    Obeys guard Uncommitted (fun v one => Uncommitted v ∧
      ∀ u, v ⊆ u → ∀ ds rest, Attempted a mutate u ds rest → Attempted a mutate u (d :: ds)
        ⟨one.results ++ rest.results, one.asserts ++ rest.asserts, one.ops ++ rest.ops⟩) t
      (updateOne a d (mutate d)) := by
  refine .perform (hquiet _ _ trivial) fun r => ?_
  have hread : Uncommitted (⟨.get (.data a d), r⟩ :: t) := ht.cons id
  cases r with
  | none =>
    exact .ret ⟨hread, fun u hu ds rest h => .absent (hu mem_cons_self) h⟩
  | some original =>
    dsimp only
    cases hmutate : mutate d original with
    | error e => exact .fail hread
    | ok data =>
      simp only [checked, ret_bind]
      by_cases hdata : data = original
      · subst hdata
        rw [if_pos rfl]
        exact .ret ⟨hread, fun u hu ds rest h => .unchanged (hu mem_cons_self) hmutate h⟩
      · rw [if_neg hdata]
        refine ((yields_pushVanishedOps a data.mailboxes original.mailboxes).obeys hquiet _).bind ?_
        rintro v vanished ⟨hvanished, u, hu, rfl⟩
        unfold ChangeLog.recordOp ChangeLog.allocateChangeId
        simp only [bind_assoc]
        refine .perform (hquiet _ _ rfl) fun n => .ret ⟨(hread.append hu).cons id, ?_⟩
        intro w hw ds rest h
        refine .changed (hw ?_) hmutate hdata hvanished ⟨n, hw mem_cons_self, rfl⟩ h
        exact mem_cons_of_mem _ (mem_append_right _ mem_cons_self)

theorem obeys_updateEach (a : ℕ) (ds : List ℕ) (ht : Uncommitted t) :
    Obeys guard Uncommitted (fun v attempt => Uncommitted v ∧ Attempted a mutate v ds attempt) t
      (updateEach a mutate ds) := by
  induction ds generalizing t with
  | nil => exact .ret ⟨ht, .nil⟩
  | cons d ds ih =>
    refine (obeys_updateOne hquiet a d ht).bind fun v one ⟨hv, hone⟩ => ?_
    refine (ih hv).andThen fun w rest hvw ⟨hw, hrest⟩ => ?_
    exact .ret ⟨hw, hone w hvw.subset ds rest hrest⟩

theorem obeys_updateRetry (a : ℕ) (ds : List ℕ) (mutate : ℕ → Mutation) (attempts : ℕ)
    (hallow : ∀ u results asserts ops, Uncommitted u →
      Attempted a mutate u ds ⟨results, asserts, ops⟩ → guard u (.batchConditional asserts ops))
    (ht : Uncommitted t) :
    Obeys guard Uncommitted (fun v messages => ∃ asserts ops, Attempted a mutate v ds ⟨messages, asserts, ops⟩ ∧
      (ops = [] ∧ Uncommitted v ∨
        (⟨.batchConditional asserts ops, true⟩ : Access) ∈ v)) t
      (updateRetry a ds mutate attempts) := by
  induction attempts generalizing t with
  | zero => exact .fail ht
  | succ attempts ih =>
    refine (obeys_updateEach hquiet a ds ht).bind ?_
    rintro v ⟨results, asserts, ops⟩ ⟨hv, hattempt⟩
    dsimp only
    split
    next hempty =>
      obtain rfl : ops = [] := isEmpty_iff.1 hempty
      exact .ret ⟨asserts, [], hattempt, .inl ⟨rfl, hv⟩⟩
    next =>
      refine .perform (hallow v results asserts ops hv hattempt) fun committed => ?_
      cases committed with
      | true =>
        exact .ret ⟨asserts, ops, hattempt.mono (subset_cons_self _ _),
          .inr mem_cons_self⟩
      | false => exact ih (hv.cons (by simp [Commit]))

end Parts

theorem MailOp.obeys_program (op : MailOp) :
    Obeys (fun t => Allows env t op) Uncommitted (fun v reply => op.Returns v reply) [] (op.program env) := by
  have hquiet : ∀ t c, Quiet c → Allows env t op c := fun _ _ => .quiet
  cases op with
  | allocate a =>
    have hdraw : Quiet (.addAndGet (.number a .email 0) 1) := rfl
    exact .call (.quiet hdraw) fun _ => .ret trivial
  | deliver request =>
    exact (obeys_filing env hquiet (deliver_leadsTo env request) (fun _ => .put ⟨rfl, rfl, rfl⟩)
      fun _ _ _ _ => .file ⟨rfl, rfl, rfl⟩).bind fun _ _ _ => .ret trivial
  | append request =>
    exact (obeys_filing env hquiet (appendMessage_leadsTo env request)
      (fun _ => .put ⟨rfl, rfl, rfl⟩) fun _ _ _ _ => .file ⟨rfl, rfl, rfl⟩).bind
        fun _ _ _ => .ret trivial
  | update a d mutate =>
    exact (obeys_updateMessage hquiet a d mutate fun _ _ _ _ => .update).bind
      fun _ _ h => .ret ⟨_, rfl, h⟩
  | updates a ds mutate =>
    exact (obeys_updateRetry hquiet a ds mutate _ (fun _ _ _ _ => .updates) uncommitted_nil).bind
      fun _ _ ⟨asserts, ops, h⟩ => .ret ⟨_, asserts, ops, rfl, h⟩
  | delete a d =>
    exact (obeys_deleteMessage env hquiet a d (fun _ _ _ _ => .remove)
      fun _ _ _ _ h => .release h rfl).bind fun _ _ h => .ret ⟨_, rfl, h⟩

section Filed
variable {ι : Type} [DecidableEq ι]

theorem FilingCommit.put {a d : ℕ} {raw : Bytes} {i : ι} {past : Past ι}
    {metadata : MessageMetadata} {data : MessageData} {ops : List WriteOp} {v w : World}
    (h : FilingCommit env a d raw (traceOf i past) metadata data ops)
    (hhistory : History (machine env.digest) w past v) :
    metadata.blobHash = env.digest raw ∧ ∃ x ∈ past, x.who = i ∧ x.cmd = .blobPut raw := by
  obtain ⟨x, hx, hwho, heq⟩ := mem_traceOf.1 h.stored
  have hres := hhistory.res_eq _ hx
  obtain ⟨j, u, cmd, r⟩ := x
  cases heq
  exact ⟨hres, _, hx, hwho, rfl⟩

end Filed
end IrixMail.Mail
