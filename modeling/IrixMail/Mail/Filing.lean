import IrixMail.Library.Faults
import IrixMail.Mail.Batches

/-!
# Filing when commands may fail

A delivery reads, draws numbers, puts the body and commits one batch; the first
error ends it. When it returns, the message has been filed, or the outcome says
why it was not.
-/

namespace IrixMail.Mail
open Library Prog Store

variable {t : Trace sig} {c : Cmd}

inductive FilingCmd : Cmd → Prop
  | get (l : Loc) : FilingCmd (.get l)
  | counter (c : CounterLoc) : FilingCmd (.counter c)
  | draw (a : ℕ) (c : Collection) (d : ℕ) : FilingCmd (.addAndGet (.number a c d) 1)
  | put (raw : Bytes) : FilingCmd (.blobPut raw)
  | batch {ops : List WriteOp} :
      WriteOp.Within [.metadata, .data, .thread, .counter, .posting, .change] ops →
      FilingCmd (.batch ops)

/-- The message has been committed, with the body that was put. -/
def Filed (a d : ℕ) (raw : Bytes) (t : Trace sig) : Prop :=
  ∃ ops metadata, (⟨.batch ops, ()⟩ : Access) ∈ t ∧
    WriteOp.set (.metadata a d) metadata ∈ ops ∧
    (⟨.blobPut raw, metadata.blobHash⟩ : Access) ∈ t

theorem Filed.mono {a d : ℕ} {raw : Bytes} {u : Trace sig} (h : Filed a d raw t) (htu : t ⊆ u) :
    Filed a d raw u := by
  obtain ⟨ops, metadata, hbatch, hset, hput⟩ := h
  exact ⟨ops, metadata, htu hbatch, hset, htu hput⟩

abbrev Filing {α : Type} (p : Action α) : Prop := Heedful (fun _ => FilingCmd) FilingCmd p

abbrev FilingTo {α : Type} (Q : Trace sig → α → Prop) (t : Trace sig) (p : Action α) : Prop :=
  Brings (fun _ => FilingCmd) FilingCmd Q t p

theorem filing_exec {α : Type} {f : c.Res → Action α} (hc : FilingCmd c) (hf : ∀ r, Filing (f r)) :
    Filing (exec c >>= f) :=
  Heedful.perform (fun _ => hc) hc hf

theorem filingTo_exec_last {Q : Trace sig → c.Res → Prop} (hc : FilingCmd c)
    (hQ : ∀ r, Q (⟨c, r⟩ :: t) r) : FilingTo Q t (exec c) :=
  Brings.performLast hc hc hQ

section Parts
variable (env : Env)

variable (a : ℕ)

theorem filing_usage : Filing (Quota.usage a) :=
  filing_exec (.counter _) fun _ => filing_exec (.counter _) fun _ => .ret _

theorem filing_fileInto (ms : List Mailbox) (data : MessageData) : Filing (fileInto a ms data) := by
  induction ms generalizing data with
  | nil => exact .ret _
  | cons m ms ih => exact (filing_exec (.draw _ _ _) fun _ => .ret _).bind fun _ => ih _

theorem filing_lookupThreads (ids : List String) : Filing (lookupThreads env a ids) := by
  induction ids with
  | nil => exact .ret _
  | cons id ids ih => exact filing_exec (.get _) fun _ => ih.bind fun _ => .ret _

theorem filingTo_resolveThread (d : ℕ) (raw : Bytes) (t : Trace sig) :
    FilingTo (fun _ r => ThreadOps a r.ops) t (resolveThread env a d raw) :=
  (filing_lookupThreads env a _).andThen fun _ _ _ => .ret (threadOps_threadOps env a _ _ _)

theorem filing_readBitmap (k : Fts.TermKey) : Filing (Fts.readBitmap a .email k) :=
  filing_exec (.get _) fun _ => .ret _

theorem filingTo_editOps (edit : Finset ℕ → Fts.PostingEdit) (ks : List Fts.TermKey)
    (t : Trace sig) :
    FilingTo (fun _ ops => PostingOps a ops) t (Fts.editOps a .email edit ks) := by
  induction ks generalizing t with
  | nil => exact .ret (by simp [PostingOps])
  | cons k ks ih =>
    refine (filing_readBitmap a k).andThen fun u bitmap _ => (ih u).bind fun _ rest _ hrest =>
      .ret (List.forall_mem_append.2 ⟨fun op hop => ⟨k, Fts.loc_of_mem_ops hop⟩, hrest⟩)

theorem filingTo_recordOp (d : ℕ) (kind : ChangeKind) (t : Trace sig) :
    FilingTo (fun _ x => ∃ n, x.2 = changeOp a d n kind) t (ChangeLog.recordOp a .email d kind) :=
  (filing_exec (.draw _ _ _) fun _ => .ret _ : Filing (ChangeLog.allocateChangeId a .email)).andThen
    fun _ n _ => .ret ⟨n, rfl⟩

end Parts

section Deliver
variable (env : Env)

theorem filingTo_commitMessage {a d : ℕ} {raw : Bytes} {metadata : MessageMetadata}
    {data : MessageData} {threading : List WriteOp} (hthreading : ThreadOps a threading)
    (hput : (⟨.blobPut raw, metadata.blobHash⟩ : Access) ∈ t) :
    FilingTo (fun u _ => Filed a d raw u) t
      (commitMessage env a d raw metadata data threading) := by
  refine (filingTo_editOps a _ _ t).bind fun u index htu hindex => ?_
  refine (filingTo_recordOp a d .insert u).bind fun v x huv hx => ?_
  obtain ⟨n, hn⟩ := hx
  have hwithin : WriteOp.Within [.metadata, .data, .thread, .counter, .posting, .change]
      (filingBatch a d n metadata data raw.length threading index) :=
    within_filingBatch hthreading hindex
  rw [filingBatch, ← hn] at hwithin
  refine filingTo_exec_last (.batch hwithin) fun _ => ?_
  exact ⟨_, metadata, List.mem_cons_self, List.mem_cons_self,
    List.mem_cons_of_mem _ (huv.subset (htu.subset hput))⟩

variable (request : DeliveryRequest)

/-- What becomes of the message: it is filed, or the outcome says why it is not. -/
def Outcome (u : Trace sig) (o : DeliveryOutcome) : Prop :=
  o.relays = deliveryRelays env request ∧
    (o.overQuota.isSome = true ∨
      o.overQuota = none ∧ o.discarded = true ∧ (sieveOutcome request).discarded = true ∨
      o.overQuota = none ∧ (planForward env request.account.forwarding request.recipient
        request.mailFrom request.raw).keepLocal = false ∨
      o.overQuota = none ∧ Filed request.account.mailId request.documentId request.raw u)

theorem filingTo_fileLocally (metadata : MessageMetadata) (inbox : Mailbox) (t : Trace sig) :
    FilingTo (Outcome env request) t (fileLocally env request metadata inbox) := by
  refine (filing_usage _).andThen fun u usage _ => ?_
  dsimp only
  split
  · exact .ret ⟨rfl, .inl rfl⟩
  · refine Brings.perform (.put _) (.put _) fun hash => ?_
    refine (filingTo_resolveThread env _ _ _ _).bind fun v threading huv hthreading => ?_
    refine (filing_fileInto _ _ _).andThen fun w filed hvw => ?_
    refine (filingTo_commitMessage env hthreading ?_).bind fun x _ _ hfiled =>
      .ret ⟨rfl, .inr (.inr (.inr ⟨rfl, hfiled⟩))⟩
    exact hvw.subset (huv.subset List.mem_cons_self)

theorem filingTo_deliver (t : Trace sig) : FilingTo (Outcome env request) t
    (deliver env request) := by
  unfold deliver
  cases ingest env [] request.raw with
  | error e => exact .fail (S := sig) e
  | ok metadata =>
    simp only [checked]
    split
    next hdiscarded => exact .ret ⟨rfl, .inr (.inl ⟨rfl, rfl, hdiscarded⟩)⟩
    next =>
      split
      next hkeep => exact .ret ⟨rfl, .inr (.inr (.inl ⟨rfl, by simpa using hkeep⟩))⟩
      next =>
        cases findInbox request.mailboxes with
        | error e => exact .fail (S := sig) e
        | ok inbox => exact filingTo_fileLocally env request metadata inbox t

theorem filing_deliver : Filing (deliver env request) := .heedful (filingTo_deliver env request)

end Deliver

end IrixMail.Mail
