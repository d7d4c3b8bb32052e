import IrixMail.Library.Discipline
import IrixMail.Mail.Mailboxes

/-!
# What a mail operation does to mailboxes

An operation that runs alone changes the entries of the messages of an account in a
disciplined way: a new entry has a UID that was just drawn, and an entry that goes
leaves a tombstone in the change log. `Advances` says so of the states before and
after it.
-/

namespace IrixMail.Mail
open Library Prog Store WriteOp List

variable {α : Type}

def mailboxesIn : Option MessageData → List MailboxUid
  | none => []
  | some data => data.mailboxes

def entriesAt (s : Records) (a d : ℕ) : List MailboxUid := mailboxesIn (s.lookup (.data a d))

def Distinct (entries : List MailboxUid) : Prop := (entries.map MailboxUid.mailboxId).Nodup

/-- The UID of the entry was drawn between the two states. -/
def DrawnUid (a : ℕ) (s t : Records) (e : MailboxUid) : Prop :=
  ∃ r : ℤ, s.counter (.number a .email e.mailboxId) < r ∧
    r ≤ t.counter (.number a .email e.mailboxId) ∧ e.uid = intAsU32 (max r 1)

variable {s t : Records} {a : ℕ}

theorem DrawnUid.mono {u v : Records} {e : MailboxUid} (h : DrawnUid a t u e)
    (hst : Calm s t) (huv : Calm u v) : DrawnUid a s v e := by
  obtain ⟨r, hlow, hhigh, huid⟩ := h
  exact ⟨r, (hst.number _ _ _).trans_lt hlow, hhigh.trans (huv.number _ _ _), huid⟩

structure Advances (a : ℕ) (s t : Records) : Prop where
  number : ∀ k, s.counter (.number a .email k) ≤ t.counter (.number a .email k)
  drawn : ∀ d, ∀ e ∈ entriesAt t a d, e ∈ entriesAt s a d ∨ DrawnUid a s t e
  single : ∀ d d' e e', e ∈ entriesAt t a d → e ∉ entriesAt s a d → e' ∈ entriesAt t a d' →
    e' ∉ entriesAt s a d' → d = d'
  distinct : ∀ d, Distinct (entriesAt s a d) → Distinct (entriesAt t a d)
  placed : ∀ d : ℕ, s.lookup (.data a d) = none → t.lookup (.data a d) ≠ none →
    0 < d ∧ d ≤ emailCounter s a
  changed : ∀ d, t.lookup (.data a d) = s.lookup (.data a d) ∨
    ∃ n kind, Drawn a n s t ∧ t.lookup (.change a .email n) = some ⟨d, kind⟩
  change : ∀ n, t.lookup (.change a .email n) = s.lookup (.change a .email n) ∨ Drawn a n s t
  tombstone : ∀ d, ∀ e ∈ entriesAt s a d, e ∉ entriesAt t a d →
    ∃ n, Drawn a n s t ∧ t.lookup (.vanished a n) = some (tombstoneOf e)
  vanished : ∀ n, t.lookup (.vanished a n) = s.lookup (.vanished a n) ∨
    Drawn a n s t ∧ ∃ d, ∃ e ∈ entriesAt s a d, e ∉ entriesAt t a d ∧
      t.lookup (.vanished a n) = some (tombstoneOf e)

structure Framed (a : ℕ) (s t : Records) : Prop extends Advances a s t where
  boxes : ∀ b k, t.lookup (.mailbox b k) = s.lookup (.mailbox b k)

/-- The records of mailboxes and messages and the change log stay as they are. -/
structure Still (s t : Records) : Prop where
  lookup : ∀ l, l.kind ≠ .number → l.kind ≠ .counter → t.lookup l = s.lookup l
  number : ∀ b c k, s.counter (.number b c k) ≤ t.counter (.number b c k)

theorem Calm.still (h : Calm s t) : Still s t :=
  ⟨fun l hl _ => h.lookup l fun a c d heq => hl (by rw [heq]; rfl), h.number⟩

theorem Still.refl (s : Records) : Still s s := (Calm.refl s).still

theorem Still.entriesAt_eq (h : Still s t) (a d : ℕ) : entriesAt t a d = entriesAt s a d := by
  unfold entriesAt
  rw [h.lookup (.data a d) (by simp) (by simp)]

theorem Still.framed (h : Still s t) (a : ℕ) : Framed a s t where
  boxes b k := h.lookup _ (by simp) (by simp)
  number k := h.number a .email k
  drawn d e he := .inl (h.entriesAt_eq a d ▸ he)
  single d d' e e' he hnew _ _ := absurd (h.entriesAt_eq a d ▸ he) hnew
  distinct d hd := h.entriesAt_eq a d ▸ hd
  placed d hs ht := absurd ((h.lookup _ (by simp) (by simp)).trans hs) ht
  changed d := .inl (h.lookup _ (by simp) (by simp))
  change n := .inl (h.lookup _ (by simp) (by simp))
  tombstone d e he hgone := absurd (h.entriesAt_eq a d ▸ he) hgone
  vanished n := .inl (h.lookup _ (by simp) (by simp))

/-! ## Tombstones -/

section Tombstones
variable {a : ℕ} {before after : List MailboxUid} {s t : Records} {ops : List WriteOp}

theorem effects_of_mem_nodup {l : Loc} {v : Val l} (hop : WriteOp.set l v ∈ ops)
    (hapart : (ops.map WriteOp.loc).Nodup) (x : Option (Val l)) : effects l ops x = some v := by
  obtain ⟨pre, post, rfl⟩ := append_of_mem hop
  refine effects_set_last (fun op hmem hloc => ?_) pre x
  rw [map_append] at hapart
  refine (nodup_cons.1 (nodup_append.1 hapart).2.1).1 (mem_map.2 ⟨op, hmem, ?_⟩)
  exact hloc

theorem Tombstones.effects_cases (h : Tombstones a before after s t ops) (n : ℕ)
    (x : Option VanishedValue) :
    effects (.vanished a n) ops x = x ∨ Drawn a n s t ∧ ∃ e ∈ before, e ∉ after ∧
      effects (.vanished a n) ops x = some (tombstoneOf e) := by
  by_cases hop : ∃ op ∈ ops, op.loc = .vanished a n
  · obtain ⟨op, hop, hloc⟩ := hop
    obtain ⟨m, e, he, hgone, hm, rfl⟩ := h.each op hop
    obtain ⟨-, rfl⟩ := Loc.vanished.inj hloc
    exact .inr ⟨hm, e, he, hgone, effects_of_mem_nodup hop h.apart x⟩
  · exact .inl (effects_of_ne (l := .vanished a n) (fun op hmem hloc => hop ⟨op, hmem, hloc⟩) x)

end Tombstones

/-! ## Batches about one document -/

/-- The state `u` is `t` but for the record of one document, a log entry for it and
tombstones. -/
structure OneDocument (a d n : ℕ) (kind : ChangeKind) (new : Option MessageData)
    (vanished : List WriteOp) (t u : Records) : Prop where
  self : u.lookup (.data a d) = new
  others : ∀ e, e ≠ d → u.lookup (.data a e) = t.lookup (.data a e)
  boxes : ∀ b k, u.lookup (.mailbox b k) = t.lookup (.mailbox b k)
  number : ∀ b c k, u.counter (.number b c k) = t.counter (.number b c k)
  change : ∀ m, u.lookup (.change a .email m) =
    if m = n then some (ChangeValue.mk d kind) else t.lookup (.change a .email m)
  vanished : ∀ m, u.lookup (.vanished a m) =
    effects (.vanished a m) vanished (t.lookup (.vanished a m))

section OneDocument
variable {a d n : ℕ} {kind : ChangeKind} {new : Option MessageData}
  {vanished : List WriteOp} {s t u : Records}

theorem OneDocument.entriesAt_self (h : OneDocument a d n kind new vanished t u) :
    entriesAt u a d = mailboxesIn new := congrArg mailboxesIn h.self

theorem OneDocument.framed (h : OneDocument a d n kind new vanished t u)
    (old : Option MessageData) (hcalm : Calm s t) (hn : Drawn a n s t) (hold : s.lookup (.data a d) = old)
    (htombs : Tombstones a (mailboxesIn old) (mailboxesIn new) s t vanished)
    (hdrawn : ∀ e ∈ mailboxesIn new, e ∈ mailboxesIn old ∨ DrawnUid a s t e)
    (hdistinct : Distinct (mailboxesIn old) → Distinct (mailboxesIn new))
    (hplaced : old = none → 0 < d ∧ (d : ℤ) ≤ emailCounter s a) : Framed a s u := by
  have hbefore : entriesAt s a d = mailboxesIn old := congrArg mailboxesIn hold
  have hothers : ∀ e, e ≠ d → entriesAt u a e = entriesAt s a e := fun e he =>
    (congrArg mailboxesIn (h.others e he)).trans (hcalm.still.entriesAt_eq a e)
  have hcounter : emailCounter u a = emailCounter t a := h.number a .email 0
  have hid : ∀ m, Drawn a m s t → Drawn a m s u := fun m hm =>
    ⟨hm.pos, hm.above, fun h0 => (hm.below h0).trans_eq hcounter.symm⟩
  have huid : ∀ e, DrawnUid a s t e → DrawnUid a s u e := by
    rintro e ⟨r, hlow, hhigh, heq⟩
    exact ⟨r, hlow, hhigh.trans_eq (h.number _ _ _).symm, heq⟩
  have hnewat : ∀ e x, x ∈ entriesAt u a e → x ∉ entriesAt s a e → e = d := by
    intro e x hx hnew
    by_contra he
    exact hnew (hothers e he ▸ hx)
  refine ⟨⟨fun k => ?_, fun e x hx => ?_, fun e e' x x' hx hnew hx' hnew' => ?_,
    fun e he => ?_, fun e hs hu => ?_, fun e => ?_, fun m => ?_, fun e x hx hgone => ?_,
    fun m => ?_⟩, fun b k => (h.boxes b k).trans (hcalm.lookup _ (by simp))⟩
  · exact (hcalm.number a .email k).trans_eq (h.number a .email k).symm
  · by_cases he : e = d
    · subst he
      rw [h.entriesAt_self] at hx
      rw [hbefore]
      exact (hdrawn x hx).imp_right (huid x)
    · exact .inl (hothers e he ▸ hx)
  · exact (hnewat e x hx hnew).trans (hnewat e' x' hx' hnew').symm
  · by_cases hed : e = d
    · subst hed
      rw [h.entriesAt_self]
      exact hdistinct (hbefore ▸ he)
    · rw [hothers e hed]
      exact he
  · by_cases he : e = d
    · subst he
      exact hplaced (hold.symm.trans hs)
    · exact absurd ((h.others e he).trans ((hcalm.data a e).trans hs)) hu
  · by_cases he : e = d
    · subst he
      exact .inr ⟨n, kind, hid n hn, (h.change n).trans (if_pos rfl)⟩
    · exact .inl ((h.others e he).trans (hcalm.data a e))
  · by_cases hm : m = n
    · exact .inr (hm ▸ hid n hn)
    · rw [h.change m, if_neg hm]
      exact .inl (hcalm.lookup _ (by simp))
  · by_cases he : e = d
    · subst he
      rw [h.entriesAt_self] at hgone
      obtain ⟨m, hmem⟩ := htombs.every x (hbefore ▸ hx) hgone
      obtain ⟨m', x', -, -, hm', heq⟩ := htombs.each _ hmem
      obtain ⟨hloc, -⟩ := WriteOp.set.inj heq
      obtain ⟨-, rfl⟩ := Loc.vanished.inj hloc
      refine ⟨m, hid m hm', (h.vanished m).trans ?_⟩
      exact effects_of_mem_nodup hmem htombs.apart _
    · exact absurd (hothers e he ▸ hx) hgone
  · rw [h.vanished m]
    rcases htombs.effects_cases m (t.lookup (.vanished a m)) with hsame | ⟨hm, x, hx, hgone, heq⟩
    · exact .inl (hsame.trans (hcalm.lookup _ (by simp)))
    · refine .inr ⟨hid m hm, d, x, hbefore ▸ hx, ?_, heq⟩
      rw [h.entriesAt_self]
      exact hgone

variable {data : MessageData} {size : ℕ}

theorem oneDocument_filed {metadata : MessageMetadata} {threading index : List WriteOp}
    (hthread : ThreadOps a threading)
    (hindex : PostingOps a index) (t : Records) :
    OneDocument a d n .insert (some data) [] t
      (t.batch (filingBatch a d n metadata data size threading index)) where
  self := lookup_filed_data hthread hindex
  others e he := lookup_filed_of_ne hthread hindex (by simp) (by simpa using he) (by simp)
  boxes b k := lookup_filed_of_ne hthread hindex (by simp) (by simp) (by simp)
  number b c k := by simp [counter_filed hthread hindex]
  change m := by
    have hops : Within [.metadata, .data, .thread, .counter, .posting]
        (filingOps a d metadata data size threading index) := within_filingOps hthread hindex
    have hrow := lookup_change_of_batch hops (by simp) t a d n .insert a m
    simpa [filingBatch] using hrow
  vanished m := lookup_filed_of_ne hthread hindex (by simp) (by simp) (by simp)

theorem oneDocument_updated (hvanished : VanishedOps a vanished)
    (t : Records) :
    OneDocument a d n .update (some data) vanished t
      (t.batch (updateBatch a d n data vanished)) := by
  have hframe : ∀ l : Loc, l.kind ∉ [.data, .vanished, .change] →
      (t.batch (updateBatch a d n data vanished)).lookup l = t.lookup l := fun l hl =>
    Records.lookup_batch_within (within_updateBatch hvanished) hl t
  refine ⟨?_, fun e he => ?_, fun b k => hframe _ (by simp), fun b c k => ?_, fun m => ?_,
    fun m => ?_⟩
  · rw [Records.lookup_batch, effects_updateBatch_data hvanished, if_pos rfl]
  · rw [Records.lookup_batch, effects_updateBatch_data hvanished, if_neg (by simpa using he.symm)]
  · unfold Records.counter
    rw [hframe _ (by simp)]
  · rw [Records.lookup_batch, effects_updateBatch_change hvanished]
    simp [eq_comm]
  · have hset : Within [.data] [WriteOp.set (.data a d) data] := within_nil.cons (by simp)
    have hentry : Within [.change] [changeOp a d n .update] :=
      within_nil.cons (by simp [changeOp])
    rw [Records.lookup_batch, updateBatch, effects_append, effects_append,
      hset.effects_eq (l := .vanished a m) (by simp),
      hentry.effects_eq (l := .vanished a m) (by simp)]

theorem oneDocument_removed {linked : List WriteOp} {held : Option MessageMetadata}
    (hlinked : UnlinkOps a held linked) (hvanished : VanishedOps a vanished) (t : Records) :
    OneDocument a d n .delete none vanished t
      ((t.batch (removalBatch a d n size linked vanished)).batch (releaseOps held)) := by
  refine ⟨?_, fun e he => ?_, fun b k => ?_, fun b c k => ?_, fun m => ?_, fun m => ?_⟩
  · rw [lookup_released (by simp)]
    exact lookup_removed_data hvanished
  · rw [lookup_released (by simp)]
    exact lookup_removed_of_ne hlinked hvanished (by simp) (by simpa using he) (by simp)
  · rw [lookup_released (by simp)]
    exact lookup_removed_of_ne hlinked hvanished (by simp) (by simp) (by simp)
  · rw [counter_released, counter_removed hlinked hvanished]
    cases held <;> simp
  · rw [lookup_released (by simp), removalBatch,
      lookup_change_of_batch (within_removalOps hlinked hvanished) (by simp)]
    simp
  · have hrecords : Within [.data, .metadata, .counter]
        ([WriteOp.delete (.data a d), .delete (.metadata a d)] ++ Quota.adjustOps a (-size) (-1)) :=
      ((within_nil.cons (by simp)).cons (by simp)).append
        ((within_adjustOps _ _).mono (by simp))
    have hentry : Within [.change] [changeOp a d n .delete] :=
      within_nil.cons (by simp [changeOp])
    rw [lookup_released (by simp), Records.lookup_batch, removalBatch, removalOps,
      effects_append, effects_append, effects_append,
      hlinked.within.effects_eq (l := .vanished a m) (by simp),
      hrecords.effects_eq (l := .vanished a m) (by simp),
      hentry.effects_eq (l := .vanished a m) (by simp)]

end OneDocument

/-! ## Operations that run alone -/

/-- The record of one document becomes `new`, those of the others stay. -/
def Sets (a d : ℕ) (new : Option MessageData) (s t : Records) : Prop :=
  ∀ e, t.lookup (.data a e) = if e = d then new else s.lookup (.data a e)

theorem OneDocument.sets {d n : ℕ} {kind : ChangeKind} {new : Option MessageData}
    {vanished : List WriteOp} {u : Records} (h : OneDocument a d n kind new vanished t u)
    (hcalm : Calm s t) : Sets a d new s u := by
  intro e
  split
  next he => exact he ▸ h.self
  next he => exact (h.others e he).trans (hcalm.data a e)

variable {data : MessageData}

theorem distinct_addMailbox (h : Distinct data.mailboxes) (k uid : ℕ) :
    Distinct (data.addMailbox k uid).mailboxes := by
  unfold MessageData.addMailbox
  split
  · exact h
  next hnew =>
    have hk : k ∉ data.mailboxes.map MailboxUid.mailboxId := by
      rintro hmem
      obtain ⟨m, hm, rfl⟩ := mem_map.1 hmem
      exact hnew (any_eq_true.2 ⟨m, hm, by simp⟩)
    unfold Distinct at h ⊢
    rw [map_append]
    refine nodup_append.2 ⟨h, nodup_singleton k, fun x hx y hy heq => hk ?_⟩
    have hy' : y = k := mem_singleton.1 hy
    rwa [← hy', ← heq]

section Runs
variable (env : Env)

variable {old : MessageData} {w : World} {metadata : MessageMetadata} {request : DeliveryRequest}

variable (digest : Digest)

theorem run_updateMessage {d : ℕ} (mutate : Mutation)
    {new : MessageData} (hcalm : Calm s w.records) (hpos : 0 ≤ emailCounter s a)
    (hold : w.records.lookup (.data a d) = some old) (hmutate : mutate old = .ok new)
    (hdrawn : ∀ e ∈ new.mailboxes, e ∈ old.mailboxes ∨ DrawnUid a s w.records e)
    (hdistinct : Distinct old.mailboxes → Distinct new.mailboxes) :
    ∃ w', (updateMessage a d mutate).run (machine digest) w = (.ok true, w') ∧
      Framed a s w'.records ∧ Sets a d (some new) s w'.records := by
  obtain ⟨n, vanished, t, hvanished, htombs, hcalmt, hn, hrun⟩ :=
    run_updateMessage_some digest hold hmutate
  have hall := hcalm.trans hcalmt
  have hone : OneDocument a d n .update (some new) vanished t.records _ :=
    oneDocument_updated hvanished t.records
  refine ⟨_, hrun, ?_, hone.sets hall⟩
  refine hone.framed (some old) hall (hn.mono hcalm (Calm.refl _)) ?_
    ((htombs (hpos.trans (hcalm.number a .email 0))).mono hcalm (Calm.refl _)) (fun e he => ?_)
    hdistinct (by simp)
  · exact (hcalm.data a d).symm.trans hold
  · exact (hdrawn e he).imp_right fun h => h.mono (Calm.refl _) hcalmt

theorem run_deleteMessage {d : ℕ} (hpos : 0 ≤ emailCounter w.records a)
    (hold : w.records.lookup (.data a d) = some old) :
    ∃ w', (deleteMessage env a d).run (machine env.digest) w = (.ok true, w') ∧
      Framed a w.records w'.records ∧ Sets a d none w.records w'.records := by
  obtain ⟨n, linked, vanished, t, hcalm, hlinked, hvanished, htombs, hn, hok, hrecords⟩ :=
    run_deleteMessage_some env hold
  have hone : OneDocument a d n .delete none vanished t
      ((deleteMessage env a d).run (machine env.digest) w).2.records :=
    hrecords ▸ oneDocument_removed hlinked hvanished t
  refine ⟨_, Prod.ext hok rfl, ?_, hone.sets hcalm⟩
  exact hone.framed (some old) hcalm hn hold (htombs hpos) (by simp [mailboxesIn])
    (by simp [mailboxesIn, Distinct]) (by simp)

theorem run_deleteMessage_none {d : ℕ} (hnone : w.records.lookup (.data a d) = none) :
    (deleteMessage env a d).run (machine env.digest) w = (.ok false, w) := by
  rw [deleteMessage_eq, run_exec_bind]
  simp only [machine, hnone, run_ret]

/-! ## Filing -/

theorem run_nextUid_bind (a : ℕ) (m : Mailbox) (f : ℕ → Action α) (w : World) :
    ∃ (uid : ℕ) (w' : World), Calm w.records w'.records ∧
      DrawnUid a w.records w'.records ⟨m.id, uid⟩ ∧
      (nextUid a m >>= f).run (machine digest) w = (f uid).run (machine digest) w' := by
  let w' := (machine digest (.addAndGet (.number a .email m.id) 1) w).2
  let next := w.records.counter (.number a .email m.id) + 1
  have hnext : w'.records.counter (.number a .email m.id) = next := by
    change ((WriteOp.add (.number a .email m.id) 1).apply w.records : Records).counter _ = _
    rw [WriteOp.counter_apply (WriteOp.additive_add _ _), WriteOp.amountAt, if_pos rfl]
  refine ⟨intAsU32 (max next 1), w', calm_draw w.records a .email m.id, ?_, rfl⟩
  exact ⟨next, by dsimp only; omega, hnext.ge, rfl⟩

theorem run_fileInto_bind (a : ℕ) (targets : List Mailbox) (data : MessageData)
    (f : MessageData → Action α) (w : World) :
    ∃ (filed : MessageData) (w' : World), Calm w.records w'.records ∧
      (∀ e ∈ filed.mailboxes, e ∈ data.mailboxes ∨ DrawnUid a w.records w'.records e) ∧
      (Distinct data.mailboxes → Distinct filed.mailboxes) ∧
      (fileInto a targets data >>= f).run (machine digest) w = (f filed).run (machine digest) w' := by
  induction targets generalizing data w with
  | nil => exact ⟨data, w, Calm.refl _, fun e he => .inl he, id, rfl⟩
  | cons m targets ih =>
    obtain ⟨uid, u, hcalm, huid, hrun⟩ := run_nextUid_bind digest a m
      (fun uid => fileInto a targets (data.addMailbox m.id uid) >>= f) w
    obtain ⟨filed, v, hcalm', hfiled, hdistinct, hrun'⟩ := ih (data.addMailbox m.id uid) u
    refine ⟨filed, v, hcalm.trans hcalm', fun e he => ?_,
      fun h => hdistinct (distinct_addMailbox h _ _), ?_⟩
    · rcases hfiled e he with hmem | hdrawn
      · rcases MessageData.mem_addMailbox hmem with hmem | rfl
        · exact .inl hmem
        · exact .inr (huid.mono (Calm.refl _) hcalm')
      · exact .inr (hdrawn.mono hcalm (Calm.refl _))
    · exact hrun.trans hrun'

/-- A filing under the document id `d` files the message or leaves everything as it is. -/
def FilesAlone (a d : ℕ) (s t : Records) : Prop :=
  Still s t ∨ Framed a s t ∧ ∃ data, Sets a d (some data) s t

theorem filed_commitMessage {d : ℕ} {raw : Bytes} {data : MessageData} {threading : List WriteOp}
    {o : α} (hthread : ThreadOps a threading) (hcalm : Calm s w.records)
    (hvacant : s.lookup (.data a d) = none) (hd : 0 < d ∧ (d : ℤ) ≤ emailCounter s a)
    (hdrawn : ∀ e ∈ data.mailboxes, DrawnUid a s w.records e) (hdistinct : Distinct data.mailboxes)
    :
    FilesAlone a d s ((commitMessage env a d raw metadata data threading >>= fun _ => pure o).run
      (machine env.digest) w).2.records := by
  obtain ⟨q, u, ⟨index, hindex, rfl⟩, hcalmu, hrun⟩ := run_leadsTo env.digest
    (commitMessage_leadsTo env a d raw metadata data threading (.ret o)) w
  obtain ⟨n, v, hcalmv, hn, hrun'⟩ := run_commitWith env.digest a d .insert
    (filingOps a d metadata data raw.length threading index) (.ret o) u
  have hone : OneDocument a d n .insert (some data) [] v.records
      (v.records.batch (filingBatch a d n metadata data raw.length threading index)) :=
    oneDocument_filed hthread hindex v.records
  have hafter := hcalmu.trans hcalmv
  have hall := hcalm.trans hafter
  have hend : ((commitMessage env a d raw metadata data threading >>= fun _ => pure o).run
      (machine env.digest) w).2.records =
        v.records.batch (filingBatch a d n metadata data raw.length threading index) :=
    congrArg (fun x => x.2.records) (hrun.trans hrun')
  rw [hend]
  refine .inr ⟨?_, data, hone.sets hall⟩
  exact hone.framed none hall (hn.mono (hcalm.trans hcalmu) (Calm.refl _)) hvacant
    (.nil (by simp [mailboxesIn])) (fun e he => .inr ((hdrawn e he).mono (Calm.refl _) hafter))
    (fun _ => hdistinct) fun _ => hd

theorem mailboxes_unfiled (raw : Bytes) (threadId receivedAt : ℕ) :
    (flagAttachment env raw (newData env raw threadId receivedAt)).mailboxes = [] := by
  unfold flagAttachment
  split
  · exact MessageData.mailboxes_addKeyword _ _
  · rfl

theorem filed_fileLocally {inbox : Mailbox}
    (hvacant : w.records.lookup (.data request.account.mailId request.documentId) = none)
    (hd : 0 < request.documentId ∧
      (request.documentId : ℤ) ≤ emailCounter w.records request.account.mailId) :
    FilesAlone request.account.mailId request.documentId w.records
      ((fileLocally env request metadata inbox).run (machine env.digest) w).2.records := by
  unfold fileLocally
  obtain ⟨usage, u, -, hcalmu, hrun⟩ := run_yields_bind env.digest
    (yields_usage request.account.mailId) _ w
  rw [hrun]
  dsimp only
  split
  · exact .inl hcalmu.still
  rw [run_exec_bind]
  obtain ⟨threading, v, hthread, hcalmv, hrun'⟩ := run_yields_bind env.digest
    (yields_resolveThread env request.account.mailId request.documentId request.raw) _
    (machine env.digest (.blobPut request.raw) u).2
  rw [hrun']
  obtain ⟨filed, x, hcalmx, hfiled, hdistinct, hrun''⟩ := run_fileInto_bind env.digest
    request.account.mailId (targetsOf request (sieveOutcome request) inbox)
    (flagAttachment env request.raw
      (newData env request.raw threading.threadId request.receivedAt)) _ v
  rw [hrun'']
  have hput : Calm u.records v.records := hcalmv
  have hbefore := hcalmu.trans hput
  have hnone := mailboxes_unfiled env request.raw threading.threadId request.receivedAt
  refine filed_commitMessage env hthread (hbefore.trans hcalmx) hvacant hd (fun e he => ?_) ?_
  · rw [MessageData.mailboxes_foldl_addKeyword] at he
    refine DrawnUid.mono ((hfiled e he).resolve_left ?_) hbefore (Calm.refl _)
    rw [hnone]
    exact not_mem_nil
  · rw [MessageData.mailboxes_foldl_addKeyword]
    refine hdistinct ?_
    rw [hnone]
    exact nodup_nil

theorem filed_deliver
    (hvacant : w.records.lookup (.data request.account.mailId request.documentId) = none)
    (hd : 0 < request.documentId ∧
      (request.documentId : ℤ) ≤ emailCounter w.records request.account.mailId) :
    FilesAlone request.account.mailId request.documentId w.records
      ((deliver env request).run (machine env.digest) w).2.records := by
  unfold deliver
  cases ingest env [] request.raw with
  | error e => exact .inl (Still.refl _)
  | ok metadata =>
    simp only [checked]
    split
    · exact .inl (Still.refl _)
    split
    · exact .inl (Still.refl _)
    cases findInbox request.mailboxes with
    | error e => exact .inl (Still.refl _)
    | ok inbox => exact filed_fileLocally env hvacant hd

/-! ## Flags -/

theorem pushVanishedOps_kept (a : ℕ) {after before : List MailboxUid} (h : before ⊆ after) :
    pushVanishedOps a after before = pure [] := by
  induction before with
  | nil => rfl
  | cons e before ih =>
    rw [pushVanishedOps, if_pos (h mem_cons_self)]
    exact ih fun x hx => h (mem_cons_of_mem e hx)

end Runs
end IrixMail.Mail
