import IrixMail.Mail.Phases

/-!
# Operations run to completion

`MailStep` lists what one mail operation, run alone, can do to the records:
nothing but draw numbers, or commit the batch of a filing, of an update or of a
removal. Every invariant of sequential runs is proved by its cases.
-/

namespace IrixMail.Mail
open Library Prog Store

variable {α : Type}

structure Calm (s t : Records) : Prop where
  lookup : ∀ l, (∀ a c d, l ≠ .counter (.number a c d)) → t.lookup l = s.lookup l
  number : ∀ a c d, s.counter (.number a c d) ≤ t.counter (.number a c d)

theorem Calm.refl (s : Records) : Calm s s := ⟨fun _ _ => rfl, fun _ _ _ => le_rfl⟩

variable {s t u v : Records} {a lo : ℕ} {ops : List WriteOp}

theorem Calm.trans (h : Calm s t) (h' : Calm t u) : Calm s u :=
  ⟨fun l hl => (h'.lookup l hl).trans (h.lookup l hl),
    fun a c d => (h.number a c d).trans (h'.number a c d)⟩

theorem Calm.counter (h : Calm s t) {c : CounterLoc}
    (hc : ∀ a k d, c ≠ .number a k d) : t.counter c = s.counter c := by
  unfold Records.counter
  rw [h.lookup (.counter c) fun a k d hd => hc a k d (Loc.counter.inj hd)]

theorem calm_draw (s : Records) (a : ℕ) (c : Collection) (d : ℕ) :
    Calm s ((WriteOp.add (.number a c d) 1).apply s) := by
  constructor
  · intro l hl
    have hne : (WriteOp.add (.number a c d) 1).loc ≠ l := (hl a c d).symm
    rw [WriteOp.lookup_apply, WriteOp.effect_of_ne hne]
  · intro a' c' d'
    rw [WriteOp.counter_apply (WriteOp.additive_add _ _), WriteOp.amountAt]
    split <;> omega

section
variable (digest : Digest)

variable {c : Cmd}

theorem calm_quiet (hc : Quiet c) (w : World) :
    Calm w.records (machine digest c w).2.records := by
  cases c with
  | addAndGet k n =>
    cases k with
    | number a c d =>
      obtain rfl : n = 1 := hc
      exact calm_draw w.records a c d
    | _ => exact hc.elim
  | put l v => exact hc.elim
  | delete l => exact hc.elim
  | batch ops => exact hc.elim
  | batchConditional asserts ops => exact hc.elim
  | _ => exact Calm.refl _

theorem blobs_quiet (hc : Quiet c) (w : World) :
    (machine digest c w).2.blobs = w.blobs := by
  cases c with
  | blobPut raw => exact hc.elim
  | blobDelete h => exact hc.elim
  | batchConditional asserts ops => exact hc.elim
  | _ => rfl

theorem run_leadsTo {stop : Action α → Prop} {p : Action α} (h : LeadsTo Quiet stop p) (w : World) :
    ∃ q w', stop q ∧ Calm w.records w'.records ∧
      p.run (machine digest) w = q.run (machine digest) w' :=
  h.run_eq (machine digest) (R := fun w w' => Calm w.records w'.records)
    (fun _ => Calm.refl _) (fun _ _ _ => Calm.trans) (fun _ w hc => calm_quiet digest hc w) w

theorem run_yields_bind {β : Type} {P : α → Prop} {p : Action α} (h : Yields Quiet P p)
    (f : α → Action β) (w : World) :
    ∃ x w', P x ∧ Calm w.records w'.records ∧
      (p >>= f).run (machine digest) w = (f x).run (machine digest) w' := by
  obtain ⟨q, w', ⟨x, rfl, hx⟩, hcalm, hrun⟩ := run_leadsTo digest h w
  exact ⟨x, w', hx, hcalm, by rw [run_bind, hrun, run_ret]⟩

end

def emailCounter (s : Records) (a : ℕ) : ℤ := s.counter (.number a .email 0)

/-- A change id drawn from the sequence between two states. -/
structure Drawn (a n : ℕ) (s t : Records) : Prop where
  pos : 0 < n
  above : emailCounter s a < n
  below : 0 ≤ emailCounter s a → n ≤ emailCounter t a

theorem Drawn.mono {n : ℕ} (h : Drawn a n t u) (hst : Calm s t)
    (huv : Calm u v) : Drawn a n s v :=
  ⟨h.pos, (hst.number a .email 0).trans_lt h.above,
    fun h0 => (h.below (h0.trans (hst.number a .email 0))).trans (huv.number a .email 0)⟩

theorem run_recordOp_bind (digest : Digest) (a d : ℕ) (kind : ChangeKind)
    (f : ℕ × WriteOp → Action α) (w : World) :
    ∃ (n : ℕ) (w' : World), Calm w.records w'.records ∧ Drawn a n w.records w'.records ∧
      (ChangeLog.recordOp a .email d kind >>= f).run (machine digest) w =
        (f (n, changeOp a d n kind)).run (machine digest) w' := by
  let w' := (machine digest (.addAndGet (.number a .email 0) 1) w).2
  let next := w.records.counter (.number a .email 0) + 1
  have hnext : emailCounter w'.records a = next := by
    change ((WriteOp.add (.number a .email 0) 1).apply w.records : Records).counter _ = _
    rw [WriteOp.counter_apply (WriteOp.additive_add _ _), WriteOp.amountAt, if_pos rfl]
  refine ⟨(max next 1).toNat, w', calm_draw w.records a .email 0, ⟨by omega, ?_, ?_⟩, rfl⟩
  · change w.records.counter (.number a .email 0) < _
    omega
  · intro h0
    have h0' : 0 ≤ w.records.counter (.number a .email 0) := h0
    omega

theorem run_commitWith (digest : Digest) (a d : ℕ) (kind : ChangeKind) (ops : List WriteOp)
    (k : Action α) (w : World) :
    ∃ (n : ℕ) (w' : World), Calm w.records w'.records ∧ Drawn a n w.records w'.records ∧
      (commitWith a d kind ops k).run (machine digest) w =
        k.run (machine digest)
          { w' with records := w'.records.batch (ops ++ [changeOp a d n kind]) } :=
  run_recordOp_bind digest a d kind
    (fun x => exec (.batch (ops ++ [x.2])) >>= fun _ => k) w

def tombstoneOf (e : MailboxUid) : VanishedValue := ⟨e.mailboxId, e.uid⟩

/-- The tombstones of the entries that are not kept, each under an id of its own. -/
structure Tombstones (a : ℕ) (before after : List MailboxUid) (s t : Records)
    (ops : List WriteOp) : Prop where
  each : ∀ op ∈ ops, ∃ n, ∃ e ∈ before, e ∉ after ∧ Drawn a n s t ∧
    op = .set (.vanished a n) (tombstoneOf e)
  every : ∀ e ∈ before, e ∉ after → ∃ n, WriteOp.set (.vanished a n) (tombstoneOf e) ∈ ops
  apart : (ops.map WriteOp.loc).Nodup

section Tombstones
variable {a : ℕ} {before after : List MailboxUid} {s t : Records} {ops : List WriteOp}

theorem Tombstones.nil (hkept : before ⊆ after) : Tombstones a before after s t [] :=
  ⟨by simp, fun e he hgone => absurd (hkept he) hgone, List.nodup_nil⟩

theorem Tombstones.mono {r u : Records} (h : Tombstones a before after s t ops) (hrs : Calm r s)
    (htu : Calm t u) : Tombstones a before after r u ops := by
  refine ⟨fun op hop => ?_, h.every, h.apart⟩
  obtain ⟨n, e, he, hgone, hn, heq⟩ := h.each op hop
  exact ⟨n, e, he, hgone, hn.mono hrs htu, heq⟩

theorem run_recordVanishedOp_bind (digest : Digest) (a : ℕ) (e : MailboxUid)
    (f : ℕ × WriteOp → Action α) (w : World) :
    ∃ (n : ℕ) (w' : World), Calm w.records w'.records ∧ Drawn a n w.records w'.records ∧
      (ChangeLog.recordVanishedOp a e.mailboxId e.uid >>= f).run (machine digest) w =
        (f (n, .set (.vanished a n) (tombstoneOf e))).run (machine digest) w' := by
  obtain ⟨n, w', hcalm, hn, hrun⟩ := run_recordOp_bind digest a 0 .update
    (fun x => f (x.1, .set (.vanished a x.1) (tombstoneOf e))) w
  exact ⟨n, w', hcalm, hn, hrun⟩

theorem run_pushVanishedOps_bind (digest : Digest) (a : ℕ) (after before : List MailboxUid)
    (f : List WriteOp → Action α) (w : World) :
    ∃ (ops : List WriteOp) (w' : World), Calm w.records w'.records ∧ VanishedOps a ops ∧
      (0 ≤ emailCounter w.records a → Tombstones a before after w.records w'.records ops) ∧
      (pushVanishedOps a after before >>= f).run (machine digest) w =
        (f ops).run (machine digest) w' := by
  induction before generalizing f w with
  | nil => exact ⟨[], w, Calm.refl _, by simp [VanishedOps], fun _ => .nil (by simp), rfl⟩
  | cons e before ih =>
    unfold pushVanishedOps
    by_cases hkept : e ∈ after
    · rw [if_pos hkept]
      obtain ⟨ops, w', hcalm, hvanished, htombs, hrun⟩ := ih f w
      refine ⟨ops, w', hcalm, hvanished, fun hpos => ⟨fun op hop => ?_, fun x hx hgone => ?_,
        (htombs hpos).apart⟩, hrun⟩
      · obtain ⟨n, x, hx, hgone, hn, heq⟩ := (htombs hpos).each op hop
        exact ⟨n, x, List.mem_cons_of_mem _ hx, hgone, hn, heq⟩
      · rcases List.mem_cons.1 hx with rfl | hx
        · exact absurd hkept hgone
        · exact (htombs hpos).every x hx hgone
    · rw [if_neg hkept, bind_assoc]
      obtain ⟨n, u, hcalm, hn, hrun⟩ := run_recordVanishedOp_bind digest a e
        (fun x => (do let rest ← pushVanishedOps a after before; pure (x.2 :: rest)) >>= f) w
      obtain ⟨ops, v, hcalm', hvanished, hrest, hrun'⟩ := ih
        (fun rest => f (.set (.vanished a n) (tombstoneOf e) :: rest)) u
      refine ⟨.set (.vanished a n) (tombstoneOf e) :: ops, v, hcalm.trans hcalm',
        List.forall_mem_cons.2 ⟨⟨n, rfl⟩, hvanished⟩, fun hpos => ?_, ?_⟩
      · have htombs := hrest (hpos.trans (hcalm.number a .email 0))
        refine ⟨fun op hop => ?_, fun x hx hgone => ?_, List.nodup_cons.2 ⟨fun hmem => ?_, htombs.apart⟩⟩
        · rcases List.mem_cons.1 hop with rfl | hop
          · exact ⟨n, e, List.mem_cons_self, hkept, hn.mono (Calm.refl _) hcalm', rfl⟩
          · obtain ⟨m, x, hx, hgone, hm, heq⟩ := htombs.each op hop
            exact ⟨m, x, List.mem_cons_of_mem _ hx, hgone, hm.mono hcalm (Calm.refl _), heq⟩
        · rcases List.mem_cons.1 hx with rfl | hx
          · exact ⟨n, List.mem_cons_self⟩
          · obtain ⟨m, hm⟩ := htombs.every x hx hgone
            exact ⟨m, List.mem_cons_of_mem _ hm⟩
        · -- every later id is above the one drawn first
          obtain ⟨op, hop, hloc⟩ := List.mem_map.1 hmem
          obtain ⟨m, x, -, -, hm, rfl⟩ := htombs.each op hop
          obtain ⟨-, rfl⟩ := Loc.vanished.inj hloc
          exact absurd (hn.below hpos) (by have := hm.above; omega)
      · rw [hrun, bind_assoc]
        exact hrun'

end Tombstones

/-- The writes of an update: for each changed document its new record, tombstones
and a change entry, the change ids increasing from one document to the next. -/
inductive UpdateOps (P : MessageData → MessageData → Prop) (a : ℕ) (s t : Records) :
    ℕ → List WriteOp → Prop
  | nil (lo : ℕ) : UpdateOps P a s t lo []
  | cons {lo d n : ℕ} {original data : MessageData} {vanished rest : List WriteOp} :
      s.lookup (.data a d) = some original → P original data → VanishedOps a vanished →
      lo < n → Drawn a n s t → UpdateOps P a s t n rest →
      UpdateOps P a s t lo (updateBatch a d n data vanished ++ rest)

def UnlinkOps (a : ℕ) (metadata : Option MessageMetadata) (ops : List WriteOp) : Prop :=
  match metadata with
  | none => ops = []
  | some m => ∃ index, PostingOps a index ∧ ops = index ++ [accountLinkOp a m.blobHash (-1)]

def releaseOps : Option MessageMetadata → List WriteOp
  | none => []
  | some m => [.add (.refCount m.blobHash) (-1)]

/-- What a mail operation that runs alone does to the records: it may file the
messages of `F`, and its mutations are among `P`. -/
inductive MailStep (digest : Digest) (F : ℕ → ℕ → Bytes → Prop)
    (P : MessageData → MessageData → Prop) : Records → Records → Prop
  | calm {s t : Records} : Calm s t → MailStep digest F P s t
  | file {s t : Records} {a d n : ℕ} {raw : Bytes} {metadata : MessageMetadata}
      {data : MessageData} {threading index : List WriteOp} :
      F a d raw → Calm s t → metadata.blobHash = digest raw → data.size = asU32 raw.length →
      ThreadOps a threading → PostingOps a index → Drawn a n s t →
      MailStep digest F P s (t.batch (filingBatch a d n metadata data raw.length threading index))
  | update {s t : Records} {a lo : ℕ} {ops : List WriteOp} :
      Calm s t → UpdateOps P a s t lo ops → MailStep digest F P s (t.batch ops)
  | remove {s t : Records} {a d n : ℕ} {data : MessageData} {metadata : Option MessageMetadata}
      {linked vanished : List WriteOp} :
      Calm s t → s.lookup (.data a d) = some data → s.lookup (.metadata a d) = metadata →
      UnlinkOps a metadata linked → VanishedOps a vanished → Drawn a n s t →
      MailStep digest F P s
        ((t.batch (removalBatch a d n data.size linked vanished)).batch (releaseOps metadata))

theorem Calm.data (h : Calm s t) (a d : ℕ) :
    t.lookup (.data a d) = s.lookup (.data a d) := h.lookup _ (by simp)

theorem Calm.metadata (h : Calm s t) (a d : ℕ) :
    t.lookup (.metadata a d) = s.lookup (.metadata a d) := h.lookup _ (by simp)

theorem UpdateOps.mono {P : MessageData → MessageData → Prop} (h : UpdateOps P a t u lo ops)
    (hst : Calm s t) (huv : Calm u v) :
    UpdateOps P a s v lo ops := by
  induction h with
  | nil lo => exact .nil lo
  | cons hdata hP hvanished hlo hn _ ih =>
    exact .cons ((hst.data _ _).symm.trans hdata) hP hvanished hlo (hn.mono hst huv) ih

theorem UpdateOps.weaken {P Q : MessageData → MessageData → Prop} (h : UpdateOps P a s t lo ops)
    (hPQ : ∀ x y, P x y → Q x y) :
    UpdateOps Q a s t lo ops := by
  induction h with
  | nil lo => exact .nil lo
  | cons hdata hP hvanished hlo hn _ ih => exact .cons hdata (hPQ _ _ hP) hvanished hlo hn ih

section Runs
variable (env : Env) {F : ℕ → ℕ → Bytes → Prop} {P : MessageData → MessageData → Prop}

variable {a d : ℕ} {raw : Bytes} {data : MessageData} {mutate : Mutation} {w : World}

theorem records_filesBody {q : Action α} (h : FilesBody env a d raw q) (w : World) :
    ∃ t n metadata data threading index, Calm w.records t ∧ metadata.blobHash = env.digest raw ∧
      data.size = asU32 raw.length ∧ ThreadOps a threading ∧ PostingOps a index ∧
      Drawn a n w.records t ∧ (q.run (machine env.digest) w).2.records =
        t.batch (filingBatch a d n metadata data raw.length threading index) := by
  obtain ⟨g, rfl, hg⟩ := h
  rw [run_exec_bind]
  obtain ⟨q, u, ⟨metadata, data, threading, o, rfl, hhash, hsize, hthread⟩, hcalm, hrun⟩ :=
    run_leadsTo env.digest (hg (env.digest raw)) (machine env.digest (.blobPut raw) w).2
  obtain ⟨q, v, ⟨index, hindex, rfl⟩, hcalm', hrun'⟩ := run_leadsTo env.digest
    (commitMessage_leadsTo env a d raw metadata data threading (.ret o)) u
  obtain ⟨n, t, hcalm'', hn, hrun''⟩ := run_commitWith env.digest a d .insert
    (filingOps a d metadata data raw.length threading index) (.ret o) v
  have hbefore : Calm w.records v.records := hcalm.trans hcalm'
  rw [show (machine env.digest (.blobPut raw) w).1 = env.digest raw from rfl, hrun, hrun', hrun'']
  exact ⟨t.records, n, metadata, data, threading, index, hbefore.trans hcalm'', hhash, hsize,
    hthread, hindex, hn.mono hbefore (Calm.refl _), rfl⟩

theorem step_of_leadsTo {p : Action α}
    (h : LeadsTo Quiet (fun q => Idle q ∨ FilesBody env a d raw q) p) (hF : F a d raw) (w : World) :
    MailStep env.digest F P w.records (p.run (machine env.digest) w).2.records := by
  obtain ⟨q, u, hq, hcalm, hrun⟩ := run_leadsTo env.digest h w
  rw [hrun]
  rcases hq with (⟨x, rfl⟩ | ⟨e, rfl⟩) | hq
  · exact .calm hcalm
  · exact .calm hcalm
  · obtain ⟨t, n, metadata, data, threading, index, hcalm', hhash, hsize, hthread, hindex, hn, heq⟩ :=
      records_filesBody env hq u
    rw [heq]
    exact .file hF (hcalm.trans hcalm') hhash hsize hthread hindex (hn.mono hcalm (Calm.refl _))

theorem step_deliver {request : DeliveryRequest}
    (hF : F request.account.mailId request.documentId request.raw) (w : World) :
    MailStep env.digest F P w.records
      ((deliver env request).run (machine env.digest) w).2.records :=
  step_of_leadsTo env (deliver_leadsTo env request) hF w

theorem run_updateMessage_some (digest : Digest) {original : MessageData}
    (hdata : w.records.lookup (.data a d) = some original)
    (hmutate : mutate original = .ok data) :
    ∃ (n : ℕ) (vanished : List WriteOp) (t : World), VanishedOps a vanished ∧
      (0 ≤ emailCounter w.records a → Tombstones a original.mailboxes data.mailboxes w.records
        t.records vanished) ∧ Calm w.records t.records ∧ Drawn a n w.records t.records ∧
      (updateMessage a d mutate).run (machine digest) w =
        (.ok true, { t with records := t.records.batch (updateBatch a d n data vanished) }) := by
  rw [updateMessage_eq, run_exec_bind]
  simp only [machine, hdata, hmutate]
  obtain ⟨vanished, u, hcalm, hvanished, htombs, hrun⟩ := run_pushVanishedOps_bind digest a
    data.mailboxes original.mailboxes _ w
  obtain ⟨n, t, hcalm', hn, hrun'⟩ := run_commitWith digest a d .update
    ([.set (.data a d) data] ++ vanished) (.ret true) u
  exact ⟨n, vanished, t, hvanished, fun hpos => (htombs hpos).mono (Calm.refl _) hcalm',
    hcalm.trans hcalm', hn.mono hcalm (Calm.refl _), hrun.trans hrun'⟩

theorem updateMessage_idle_or (digest : Digest) (a d : ℕ) (mutate : Mutation) (w : World) :
    ((updateMessage a d mutate).run (machine digest) w).2 = w ∨
      ∃ old new, w.records.lookup (.data a d) = some old ∧ mutate old = .ok new := by
  cases hold : w.records.lookup (.data a d) with
  | none =>
    rw [updateMessage_eq, run_exec_bind]
    simp only [machine, hold]
    exact .inl rfl
  | some old =>
    cases hmutate : mutate old with
    | error e =>
      rw [updateMessage_eq, run_exec_bind]
      simp only [machine, hold, hmutate]
      exact .inl rfl
    | ok new => exact .inr ⟨old, new, rfl, hmutate⟩

theorem records_updateMessage (a d : ℕ) (hP : ∀ x y, mutate x = .ok y → P x y) (w : World) :
    ∃ t ops, Calm w.records t ∧ UpdateOps P a w.records t 0 ops ∧
      ((updateMessage a d mutate).run (machine env.digest) w).2.records = t.batch ops := by
  rcases updateMessage_idle_or env.digest a d mutate w with hidle | ⟨old, data, hdata, hmutate⟩
  · exact ⟨w.records, [], Calm.refl _, .nil 0, congrArg World.records hidle⟩
  · obtain ⟨n, vanished, t, hvanished, -, hcalm, hn, hrun⟩ :=
      run_updateMessage_some env.digest hdata hmutate
    have hops : UpdateOps P a w.records t.records 0 (updateBatch a d n data vanished) := by
      have hone := UpdateOps.cons hdata (hP _ _ hmutate) hvanished hn.pos hn (.nil n)
      rwa [List.append_nil] at hone
    rw [hrun]
    exact ⟨t.records, _, hcalm, hops, rfl⟩

theorem step_updateMessage (a d : ℕ) (hP : ∀ x y, mutate x = .ok y → P x y) (w : World) :
    MailStep env.digest F P w.records
      ((updateMessage a d mutate).run (machine env.digest) w).2.records := by
  obtain ⟨t, ops, hcalm, hops, heq⟩ := records_updateMessage env a d hP w
  rw [heq]
  exact .update hcalm hops

theorem yields_removalMetadataOps (a d : ℕ) (held : Option MessageMetadata) :
    Yields Quiet (UnlinkOps a held) (removalMetadataOps env a d held) := by
  cases held with
  | none => exact .ret rfl
  | some m =>
    exact (yields_removalIndexOps env a d m.blobHash).bind fun index hindex =>
      .ret ⟨index, hindex, rfl⟩

theorem run_deleteMessage_some (hdata : w.records.lookup (.data a d) = some data) :
    ∃ n linked vanished t, Calm w.records t ∧
      UnlinkOps a (w.records.lookup (.metadata a d)) linked ∧ VanishedOps a vanished ∧
      (0 ≤ emailCounter w.records a → Tombstones a data.mailboxes [] w.records t vanished) ∧
      Drawn a n w.records t ∧ ((deleteMessage env a d).run (machine env.digest) w).1 = .ok true ∧
      ((deleteMessage env a d).run (machine env.digest) w).2.records =
        (t.batch (removalBatch a d n data.size linked vanished)).batch
          (releaseOps (w.records.lookup (.metadata a d))) := by
  rw [deleteMessage_eq, run_exec_bind]
  simp only [machine, hdata]
  rw [run_exec_bind]
  simp only [machine]
  generalize w.records.lookup (.metadata a d) = metadata
  obtain ⟨linked, u, hlinked, hcalm, hrun⟩ := run_yields_bind env.digest
    (yields_removalMetadataOps env a d metadata) _ w
  rw [hrun]
  obtain ⟨vanished, v, hcalm', hvanished, htombs, hrun'⟩ := run_pushVanishedOps_bind env.digest a []
    data.mailboxes _ u
  rw [hrun']
  obtain ⟨n, t, hcalm'', hn, hrun''⟩ := run_commitWith env.digest a d .delete
    (linked ++ removalOps a d data.size vanished)
    (releaseAfter metadata >>= fun _ => .ret true) v
  rw [hrun'']
  have hbefore := hcalm.trans hcalm'
  refine ⟨n, linked, vanished, t.records, hbefore.trans hcalm'', hlinked, hvanished,
    fun hpos => (htombs (hpos.trans (hcalm.number a .email 0))).mono hcalm hcalm'',
    hn.mono hbefore (Calm.refl _), ?_⟩
  cases metadata <;> exact ⟨rfl, rfl⟩

theorem step_deleteMessage (a d : ℕ) (w : World) :
    MailStep env.digest F P w.records
      ((deleteMessage env a d).run (machine env.digest) w).2.records := by
  cases hdata : w.records.lookup (.data a d) with
  | none =>
    rw [deleteMessage_eq, run_exec_bind]
    simp only [machine, hdata]
    exact .calm (Calm.refl _)
  | some data =>
    obtain ⟨n, linked, vanished, t, hcalm, hlinked, hvanished, -, hn, -, heq⟩ :=
      run_deleteMessage_some env hdata
    rw [heq]
    exact .remove hcalm hdata rfl hlinked hvanished hn

/-- One document of an attempt: its mutation fails, or what it asserts holds and its
writes go before those of the documents after it. -/
theorem run_updateOne (a d : ℕ) (hP : ∀ x y, mutate x = .ok y → P x y) (lo : ℕ)
    (hpos : 0 ≤ emailCounter w.records a) (hlo : (lo : ℤ) ≤ emailCounter w.records a) :
    (∃ e, (updateOne a d mutate).run (machine env.digest) w = (.error e, w)) ∨
      ∃ attempt w', ∃ next : ℕ,
        (updateOne a d mutate).run (machine env.digest) w = (.ok attempt, w') ∧
        Calm w.records w'.records ∧ (next : ℤ) ≤ emailCounter w'.records a ∧
        (∀ x ∈ attempt.asserts, ∃ d v, x = ⟨.data a d, some v⟩ ∧
          w.records.lookup (.data a d) = some v) ∧
        ∀ t rest, Calm w'.records t → UpdateOps P a w'.records t next rest →
          UpdateOps P a w.records t lo (attempt.ops ++ rest) := by
  unfold updateOne loadData
  rw [run_exec_bind]
  cases hdata : w.records.lookup (.data a d) with
  | none =>
    simp only [machine, hdata]
    exact .inr ⟨_, w, lo, rfl, Calm.refl _, hlo, by simp, fun _ _ _ h => h⟩
  | some original =>
    simp only [machine, hdata]
    cases hmutate : mutate original with
    | error e => exact .inl ⟨e, rfl⟩
    | ok data =>
      simp only [checked, ret_bind]
      split
      · exact .inr ⟨_, w, lo, rfl, Calm.refl _, hlo, by simp, fun _ _ _ h => h⟩
      · obtain ⟨vanished, u, hvanished, hcalm, hrun⟩ := run_yields_bind env.digest
          (yields_pushVanishedOps a data.mailboxes original.mailboxes) _ w
        rw [hrun]
        obtain ⟨n, t, hcalm', hn, hrun'⟩ := run_recordOp_bind env.digest a d .update _ u
        have hdrawn := hn.mono hcalm (Calm.refl _)
        refine .inr ⟨_, t, n, hrun', hcalm.trans hcalm', hdrawn.below hpos, ?_,
          fun v rest hv hrest => ?_⟩
        · simpa using hdata
        · refine .cons hdata (hP _ _ hmutate) hvanished ?_ (hdrawn.mono (Calm.refl _) hv)
            (hrest.mono (hcalm.trans hcalm') (Calm.refl _))
          exact_mod_cast hlo.trans_lt hdrawn.above

theorem run_updateEach (a : ℕ) {mutate : ℕ → Mutation}
    (hP : ∀ d x y, mutate d x = .ok y → P x y) (ds : List ℕ) (lo : ℕ)
    (hpos : 0 ≤ emailCounter w.records a) (hlo : (lo : ℤ) ≤ emailCounter w.records a) :
    (∃ e w', (updateEach a mutate ds).run (machine env.digest) w = (.error e, w') ∧
        Calm w.records w'.records) ∨
      ∃ attempt w', (updateEach a mutate ds).run (machine env.digest) w = (.ok attempt, w') ∧
        Calm w.records w'.records ∧
        (∀ x ∈ attempt.asserts, ∃ d v, x = ⟨.data a d, some v⟩ ∧
          w.records.lookup (.data a d) = some v) ∧
        UpdateOps P a w.records w'.records lo attempt.ops := by
  induction ds generalizing w lo with
  | nil => exact .inr ⟨_, w, rfl, Calm.refl _, by simp, .nil lo⟩
  | cons d ds ih =>
    unfold updateEach
    rw [run_bind]
    rcases run_updateOne env a d (hP d) lo hpos hlo with
      ⟨e, hrun⟩ | ⟨one, u, next, hrun, hcalm, hnext, hone, hops⟩
    · rw [hrun]
      exact .inl ⟨e, w, rfl, Calm.refl _⟩
    rw [hrun]
    rcases ih next (hpos.trans (hcalm.number a .email 0)) hnext with
      ⟨e, v, hrun', hcalm'⟩ | ⟨rest, v, hrun', hcalm', hrest, hupd⟩
    · refine .inl ⟨e, v, ?_, hcalm.trans hcalm'⟩
      simp only [run_bind, hrun']
    · refine .inr ⟨_, v, by simp only [run_bind, hrun']; rfl, hcalm.trans hcalm', fun x hx => ?_,
        hops _ _ hcalm' hupd⟩
      rcases List.mem_append.1 hx with hx | hx
      · exact hone x hx
      · obtain ⟨d', v', rfl, hd'⟩ := hrest x hx
        exact ⟨d', v', rfl, (hcalm.data a d').symm.trans hd'⟩

theorem records_updateMessages (a : ℕ) (ds : List ℕ) {mutate : ℕ → Mutation}
    (hP : ∀ d x y, mutate d x = .ok y → P x y) (hpos : 0 ≤ emailCounter w.records a) :
    ∃ t ops, Calm w.records t ∧ UpdateOps P a w.records t 0 ops ∧
      ((updateMessages a ds mutate).run (machine env.digest) w).2.records = t.batch ops := by
  unfold updateMessages updateRaceAttempts updateRetry
  rw [run_bind]
  rcases run_updateEach env a hP ds 0 hpos hpos with
    ⟨e, u, hrun, hcalm⟩ | ⟨attempt, u, hrun, hcalm, hasserts, hops⟩
  · rw [hrun]
    exact ⟨u.records, [], hcalm, .nil 0, rfl⟩
  · rw [hrun]
    dsimp only
    split
    · exact ⟨u.records, [], hcalm, .nil 0, rfl⟩
    · have hall : attempt.asserts.all u.records.meets = true := by
        rw [List.all_eq_true]
        intro x hx
        obtain ⟨d, v, rfl, hd⟩ := hasserts x hx
        exact decide_eq_true ((hcalm.data a d).trans hd)
      rw [run_exec_bind]
      simp only [machine, hall]
      exact ⟨u.records, attempt.ops, hcalm, hops, rfl⟩

end Runs

inductive MailOp
  | allocate (a : ℕ)
  | deliver (request : DeliveryRequest)
  | append (request : AppendRequest)
  | update (a d : ℕ) (mutate : Mutation)
  | updates (a : ℕ) (ds : List ℕ) (mutate : ℕ → Mutation)
  | delete (a d : ℕ)

inductive Reply
  | allocated (documentId : ℕ)
  | delivered (outcome : DeliveryOutcome)
  | appended (outcome : AppendOutcome)
  | updated (found : Bool)
  | updatedAll (messages : List UpdatedMessage)
  | deleted (found : Bool)

namespace MailOp
variable (env : Env)

def program : MailOp → Action Reply
  | allocate a => .allocated <$> allocateDocumentId a
  | deliver request => .delivered <$> Mail.deliver env request
  | append request => .appended <$> appendMessage env request
  | update a d mutate => .updated <$> updateMessage a d mutate
  | updates a ds mutate => .updatedAll <$> updateMessages a ds mutate
  | delete a d => .deleted <$> deleteMessage env a d

def perform (w : World) (op : MailOp) : World := ((op.program env).run (machine env.digest) w).2

/-- The message that the call may file. -/
def Files : MailOp → ℕ → ℕ → Bytes → Prop
  | deliver request => fun a d raw =>
      a = request.account.mailId ∧ d = request.documentId ∧ raw = request.raw
  | append request => fun a d raw =>
      a = request.account.mailId ∧ d = request.documentId ∧ raw = request.raw
  | _ => fun _ _ _ => False

def Mutates : MailOp → MessageData → MessageData → Prop
  | update _ _ mutate => fun x y => mutate x = .ok y
  | updates _ _ mutate => fun x y => ∃ d, mutate d x = .ok y
  | _ => fun _ _ => False

theorem step_perform (op : MailOp) {w : World} (hpos : ∀ a, 0 ≤ emailCounter w.records a) :
    MailStep env.digest op.Files op.Mutates w.records (op.perform env w).records := by
  unfold perform
  cases op with
  | allocate a =>
    exact .calm (calm_draw w.records a .email 0)
  | deliver request =>
    rw [program, run_map]
    exact step_deliver env ⟨rfl, rfl, rfl⟩ w
  | append request =>
    rw [program, run_map]
    exact step_of_leadsTo env (appendMessage_leadsTo env request) ⟨rfl, rfl, rfl⟩ w
  | update a d mutate =>
    rw [program, run_map]
    exact step_updateMessage env a d (fun _ _ h => h) w
  | updates a ds mutate =>
    rw [program, run_map]
    obtain ⟨t, ops, hcalm, hops, heq⟩ :=
      records_updateMessages env (P := Mutates (.updates a ds mutate)) a ds (fun d _ _ h => ⟨d, h⟩)
        (hpos a)
    rw [heq]
    exact .update hcalm hops
  | delete a d =>
    rw [program, run_map]
    exact step_deleteMessage env a d w

end MailOp
end IrixMail.Mail
