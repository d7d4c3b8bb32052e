import IrixMail.Mail.Upkeep

/-!
# What a filing leaves in the store

When every blob lies under its own digest, a filed message can be read back: its data
record, its metadata, and under the hash that the metadata name the very octets that
were filed.
-/

namespace IrixMail.Mail
open Library Prog Store WriteOp

def Addressed (digest : Digest) (w : World) : Prop :=
  ∀ h b, w.blobs.lookup h = some b → h = digest b.bytes

variable {w : World} {digest : Digest}

theorem Addressed.putBlob (h : Addressed digest w)
    (raw : Bytes) : Addressed digest (w.putBlob (digest raw) raw) := by
  intro k b hb
  rw [World.lookup_putBlob] at hb
  split at hb
  next heq =>
    obtain rfl := Option.some.inj hb
    rcases w.bytes_writtenBlob (digest raw) raw with hnew | ⟨old, hold, hsame⟩
    · rw [heq, hnew]
    · rw [heq, hsame]
      exact h _ _ hold
  next => exact h _ _ hb

theorem Addressed.machine (h : Addressed digest w)
    (c : Cmd) : Addressed digest (machine digest c w).2 := by
  cases c with
  | blobPut raw => exact h.putBlob raw
  | blobDelete k =>
    intro j b hb
    by_cases hj : j = k
    · subst hj
      have hnone : (w.blobs.erase j).lookup j = none := AList.lookup_erase j w.blobs
      exact absurd (hb.symm.trans hnone) (by simp)
    · exact h _ _ ((AList.lookup_erase_ne hj).symm.trans hb)
  | batchConditional asserts ops =>
    simp only [Store.machine]
    split <;> exact h
  | _ => exact h

theorem Addressed.run (h : Addressed digest w) {α : Type}
    (p : Action α) : Addressed digest (p.run (Store.machine digest) w).2 :=
  run_rel (Store.machine digest) (R := fun w w' => Addressed digest w → Addressed digest w')
    (fun _ => id) (fun _ _ _ h h' hw => h' (h hw)) (fun c _ hw => hw.machine c) p w h

theorem Addressed.lookup_putBlob {env : Env} (h : Addressed env.digest w) (raw : Bytes) :
    ∃ b, (w.putBlob (env.digest raw) raw).blobs.lookup (env.digest raw) = some b ∧
      b.bytes = raw := by
  have hlookup := w.lookup_putBlob (env.digest raw) (env.digest raw) raw
  rw [if_pos rfl] at hlookup
  exact ⟨_, hlookup, (env.digest_injective (h.putBlob raw _ _ hlookup)).symm⟩

/-! ## Runs that leave the blobs alone -/

section Quiet
variable (digest : Digest) {α β : Type}

/-- Only number sequences moved. -/
def Resting (w w' : World) : Prop := Calm w.records w'.records ∧ w'.blobs = w.blobs

theorem Resting.trans {w' w'' : World} (h : Resting w w') (h' : Resting w' w'') : Resting w w'' :=
  ⟨h.1.trans h'.1, h'.2.trans h.2⟩

theorem resting_leadsTo {stop : Action α → Prop} {p : Action α} (h : LeadsTo Quiet stop p)
    (w : World) : ∃ q w', stop q ∧ Resting w w' ∧
      p.run (machine digest) w = q.run (machine digest) w' :=
  h.run_eq (machine digest) (R := Resting) (fun _ => ⟨Calm.refl _, rfl⟩)
    (fun _ _ _ => Resting.trans)
    (fun _ w hc => ⟨calm_quiet digest hc w, blobs_quiet digest hc w⟩) w

theorem resting_yields_bind {P : α → Prop} {p : Action α} (h : Yields Quiet P p)
    (f : α → Action β) (w : World) :
    ∃ x w', P x ∧ Resting w w' ∧
      (p >>= f).run (machine digest) w = (f x).run (machine digest) w' := by
  obtain ⟨q, w', ⟨x, rfl, hx⟩, hrest, hrun⟩ := resting_leadsTo digest h w
  exact ⟨x, w', hx, hrest, by rw [run_bind, hrun, run_ret]⟩

theorem yields_fileInto_single (a : ℕ) (m : Mailbox) {data : MessageData}
    (hnone : data.mailboxes = []) :
    Yields Quiet (fun filed => ∃ uid, filed.mailboxes = [⟨m.id, uid⟩]) (fileInto a [m] data) := by
  refine (yields_nextUid a m).bind fun uid _ => .ret ⟨uid, ?_⟩
  simp [MessageData.addMailbox, hnone]

end Quiet

/-! ## A stored message -/

variable (env : Env)

structure Stored (a d : ℕ) (raw : Bytes) (data : MessageData) (w : World) : Prop where
  data : w.records.lookup (.data a d) = some data
  metadata : ∃ metadata, w.records.lookup (.metadata a d) = some metadata ∧
    metadata.blobHash = env.digest raw
  body : ∃ b, w.blobs.lookup (env.digest raw) = some b ∧ b.bytes = raw

theorem stored_commitMessage {α : Type} {a d : ℕ} {raw : Bytes} {metadata : MessageMetadata}
    {data : MessageData} {threading : List WriteOp} (o : α)
    (hthread : ThreadOps a threading) (hhash : metadata.blobHash = env.digest raw)
    (hbody : ∃ b, w.blobs.lookup (env.digest raw) = some b ∧ b.bytes = raw) :
    ∃ w', (commitMessage env a d raw metadata data threading >>= fun _ => pure o).run
        (machine env.digest) w = (.ok o, w') ∧ Stored env a d raw data w' := by
  obtain ⟨q, u, ⟨index, hindex, rfl⟩, hrest, hrun⟩ := resting_leadsTo env.digest
    (commitMessage_leadsTo env a d raw metadata data threading (.ret o)) w
  -- the change id is drawn and the batch written, both without a look at the blobs
  let n := (max (u.records.counter (.number a .email 0) + 1) 1).toNat
  let records := ((WriteOp.add (.number a .email 0) 1).apply u.records).batch
    (filingBatch a d n metadata data raw.length threading index)
  refine ⟨{ u with records := records }, hrun, ?_, ⟨metadata, ?_, hhash⟩, ?_⟩
  · exact lookup_filed_data hthread hindex
  · exact lookup_filed_metadata hthread hindex
  · rw [hrest.2]
    exact hbody

/-! ## Deliveries -/

def usageIn (s : Records) (a : ℕ) : QuotaUsage :=
  ⟨(max (s.counter (.quotaBytes a)) 0).toNat, (max (s.counter (.quotaMessages a)) 0).toNat⟩

theorem run_usage_bind {α : Type} (a : ℕ) (f : QuotaUsage → Action α) (w : World) :
    (Quota.usage a >>= f).run (machine env.digest) w =
      (f (usageIn w.records a)).run (machine env.digest) w := rfl

def HasRoom (account : Directory.Account) (size : ℕ) (s : Records) : Prop :=
  (enforceQuota (limitsFor account) (usageIn s account.mailId) size).isOverQuota = false

section Deliver
variable {request : DeliveryRequest} {metadata : MessageMetadata} {inbox : Mailbox} {w : World}

theorem run_fileLocally_over
    (hover : ¬ HasRoom request.account request.raw.length w.records) :
    ∃ o, (fileLocally env request metadata inbox).run (machine env.digest) w = (.ok o, w) := by
  unfold fileLocally
  rw [run_usage_bind]
  rw [if_pos (Bool.of_not_eq_false hover)]
  exact ⟨_, rfl⟩

theorem stored_fileLocally {m : Mailbox} (haddressed : Addressed env.digest w)
    (hroom : HasRoom request.account request.raw.length w.records)
    (htargets : targetsOf request (sieveOutcome request) inbox = [m]) :
    ∃ o w' data uid, (fileLocally env request metadata inbox).run (machine env.digest) w =
        (.ok o, w') ∧
      Stored env request.account.mailId request.documentId request.raw data w' ∧
      data.mailboxes = [⟨m.id, uid⟩] := by
  unfold fileLocally
  rw [run_usage_bind]
  rw [if_neg (ne_true_of_eq_false hroom), run_exec_bind]
  obtain ⟨threading, u, hthread, hrest, hrun⟩ := resting_yields_bind env.digest
    (yields_resolveThread env request.account.mailId request.documentId request.raw) _
    (machine env.digest (.blobPut request.raw) w).2
  rw [hrun, htargets]
  obtain ⟨filed, v, ⟨uid, hfiled⟩, hrest', hrun'⟩ := resting_yields_bind env.digest
    (yields_fileInto_single request.account.mailId m
      (mailboxes_unfiled env request.raw threading.threadId request.receivedAt)) _ u
  rw [hrun']
  have hbody : ∃ b, v.blobs.lookup (env.digest request.raw) = some b ∧ b.bytes = request.raw := by
    rw [(hrest.trans hrest').2]
    exact haddressed.lookup_putBlob request.raw
  have hhash : ({ metadata with blobHash := env.digest request.raw } : MessageMetadata).blobHash =
      env.digest request.raw := rfl
  obtain ⟨w', hcommit, hstored⟩ := stored_commitMessage env _ hthread hhash hbody
  refine ⟨_, w', _, uid, hcommit, hstored, ?_⟩
  rw [MessageData.mailboxes_foldl_addKeyword, hfiled]

theorem findInbox_cases {o : DeliveryOutcome} {w' : World}
    (hrun : (checked (findInbox request.mailboxes) >>= fileLocally env request metadata).run
      (machine env.digest) w = (.ok o, w')) :
    ∃ inbox, (fileLocally env request metadata inbox).run (machine env.digest) w = (.ok o, w') := by
  cases hinbox : findInbox request.mailboxes with
  | error e =>
    rw [hinbox] at hrun
    simp [checked] at hrun
  | ok inbox =>
    rw [hinbox] at hrun
    exact ⟨inbox, hrun⟩

/-- A delivery without a script keeps a copy unless the account forwards everything. -/
def KeepsCopy (request : DeliveryRequest) : Prop :=
  (planForward env request.account.forwarding request.recipient request.mailFrom
    request.raw).keepLocal = true

theorem deliver_cases {o : DeliveryOutcome} {w' : World} {target : Mailbox → Mailbox}
    (haddressed : Addressed env.digest w) (hsieve : request.sieve = none)
    (htargets : ∀ inbox, targetsOf request (sieveOutcome request) inbox = [target inbox])
    (hrun : (deliver env request).run (machine env.digest) w = (.ok o, w')) :
    (¬ (KeepsCopy env request ∧ HasRoom request.account request.raw.length w.records) ∧ w' = w) ∨
      (KeepsCopy env request ∧ HasRoom request.account request.raw.length w.records ∧
        ∃ data inbox uid,
          Stored env request.account.mailId request.documentId request.raw data w' ∧
          data.mailboxes = [⟨(target inbox).id, uid⟩]) := by
  have hdiscarded : (sieveOutcome request).discarded = false := by
    unfold sieveOutcome
    rw [hsieve]
  unfold deliver at hrun
  cases hingest : ingest env [] request.raw with
  | error e => simp [hingest, checked] at hrun
  | ok metadata =>
    simp only [hingest, checked, ret_bind, hdiscarded, Bool.false_eq_true, if_false] at hrun
    by_cases hkeeps : KeepsCopy env request
    · rw [if_neg (by simpa [KeepsCopy] using hkeeps)] at hrun
      obtain ⟨inbox, hfile⟩ := findInbox_cases env hrun
      by_cases hroom : HasRoom request.account request.raw.length w.records
      · obtain ⟨o', u, data, uid, hrun', hstored, hentries⟩ :=
          stored_fileLocally env haddressed hroom (htargets inbox)
        obtain ⟨-, rfl⟩ := Prod.mk.inj (hrun'.symm.trans hfile)
        exact .inr ⟨hkeeps, hroom, data, inbox, uid, hstored, hentries⟩
      · obtain ⟨o', hrun'⟩ := run_fileLocally_over env hroom
        obtain ⟨-, rfl⟩ := Prod.mk.inj (hrun'.symm.trans hfile)
        exact .inl ⟨fun h => hroom h.2, rfl⟩
    · rw [if_pos (by simpa [KeepsCopy] using hkeeps)] at hrun
      obtain ⟨-, rfl⟩ := Prod.mk.inj hrun
      exact .inl ⟨fun h => hkeeps h.1, rfl⟩

end Deliver

/-! ## Updates -/

/-- An update that keeps the mailboxes changes the data record and nothing else of the
message. -/
theorem Stored.update {a d : ℕ} {raw : Bytes} {data new : MessageData} {mutate : Mutation}
    (h : Stored env a d raw data w) (hmutate : mutate data = .ok new)
    (hkept : new.mailboxes = data.mailboxes) :
    ∃ w', (updateMessage a d mutate).run (machine env.digest) w = (.ok true, w') ∧
      Stored env a d raw new w' := by
  let n := (max (w.records.counter (.number a .email 0) + 1) 1).toNat
  let drawn := (WriteOp.add (.number a .email 0) 1).apply w.records
  let records := drawn.batch (updateBatch a d n new [])
  have hrun : (updateMessage a d mutate).run (machine env.digest) w =
      (.ok true, { w with records := records }) := by
    rw [updateMessage_eq, run_exec_bind]
    simp only [machine, h.data, hmutate, checked, ret_bind]
    rw [pushVanishedOps_kept a fun _ he => hkept.symm ▸ he]
    rfl
  have hupdate : VanishedOps a [] := by simp [VanishedOps]
  obtain ⟨metadata, hmetadata, hhash⟩ := h.metadata
  refine ⟨_, hrun, ?_, ⟨metadata, ?_, hhash⟩, h.body⟩
  · rw [Records.lookup_batch, effects_updateBatch_data hupdate, if_pos rfl]
  · rw [Records.lookup_batch,
      (calm_draw w.records a .email 0).metadata]
    exact hmetadata

/-! ## Accounts -/

theorem MailStep.account {F : ℕ → ℕ → Bytes → Prop}
    {P : MessageData → MessageData → Prop} {s t : Records} (h : MailStep digest F P s t) (id : ℕ) :
    t.lookup (.account id) = s.lookup (.account id) := by
  cases h with
  | calm h => exact h.lookup _ (by simp)
  | file hF h hhash hsize hthread hindex hn =>
    rw [lookup_filed_of_ne hthread hindex (by simp) (by simp) (by simp)]
    exact h.lookup _ (by simp)
  | update h hops =>
    rw [lookup_updated_of_ne hops (by simp) (by simp) (by simp)]
    exact h.lookup _ (by simp)
  | remove h hdata hmetadata hlinked hvanished hn =>
    rw [lookup_released (by simp),
      lookup_removed_of_ne hlinked hvanished (by simp) (by simp) (by simp)]
    exact h.lookup _ (by simp)

end IrixMail.Mail
