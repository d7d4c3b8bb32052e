import IrixMail.Mail.Sequential
import Mathlib.Tactic.Linarith

/-!
# What the batches write

For the batch of a filing, of an update and of a removal: which kinds of records
it writes, what it leaves at the records of a message, and what it adds to the
counters.
-/

namespace IrixMail.Mail
open Library Prog Store WriteOp List

section Kinds
variable {a : ℕ} {ops : List WriteOp}

theorem ThreadOps.within (h : ThreadOps a ops) : Within [.thread] ops := by
  intro op hop
  obtain ⟨x, hx⟩ := h op hop
  simp [hx]

theorem PostingOps.within (h : PostingOps a ops) : Within [.posting] ops := by
  intro op hop
  obtain ⟨k, hk⟩ := h op hop
  simp [hk]

theorem VanishedOps.within (h : VanishedOps a ops) : Within [.vanished] ops := by
  intro op hop
  obtain ⟨n, hn⟩ := h op hop
  simp [hn]

theorem within_adjustOps (b m : ℤ) : Within [.counter] (Quota.adjustOps a b m) := by
  intro op hop
  rcases Quota.loc_adjustOps hop with h | h <;> simp [h]

theorem within_releaseOps (held : Option MessageMetadata) : Within [.counter]
    (releaseOps held) := by
  cases held with
  | none => exact within_nil
  | some m => exact within_nil.cons (by simp)

theorem lookup_released {s : Records} {held : Option MessageMetadata} {l : Loc}
    (hl : l.kind ≠ .counter) : (s.batch (releaseOps held)).lookup l = s.lookup l :=
  Records.lookup_batch_within (within_releaseOps held) (by simpa using hl) s

theorem counter_released (s : Records) (held : Option MessageMetadata) (c : CounterLoc) :
    (s.batch (releaseOps held)).counter c =
      s.counter c - held.elim 0 fun m => if .refCount m.blobHash = c then 1 else 0 := by
  cases held with
  | none => exact (sub_zero _).symm
  | some m =>
    rw [Records.counter_batch (by simp [releaseOps, WriteOp.Additive])]
    simp only [releaseOps, map_cons, amountAt_add,
      Option.elim_some]
    split <;> rfl

theorem UnlinkOps.within {held : Option MessageMetadata} (h : UnlinkOps a held ops) :
    Within [.posting, .counter] ops := by
  cases held with
  | none =>
    obtain rfl : ops = [] := h
    exact within_nil
  | some m =>
    obtain ⟨index, hindex, rfl⟩ := h
    exact (hindex.within.mono (by simp)).append (within_nil.cons (by simp [accountLinkOp]))

end Kinds

/-! ## Blobs that are unlinked -/

def unlinkedBlobs (ops : List WriteOp) : List BlobHash :=
  ops.filterMap fun
    | .add (.link _ h) n => if n < 0 then some h else none
    | _ => none

@[simp] theorem unlinkedBlobs_nil : unlinkedBlobs [] = [] := rfl

@[simp] theorem unlinkedBlobs_append (ops ops' : List WriteOp) :
    unlinkedBlobs (ops ++ ops') = unlinkedBlobs ops ++ unlinkedBlobs ops' :=
  filterMap_append

theorem unlinkedBlobs_of_loc {ops : List WriteOp}
    (h : ∀ op ∈ ops, ∀ a hash, op.loc ≠ .counter (.link a hash)) : unlinkedBlobs ops = [] := by
  refine filterMap_eq_nil_iff.2 fun op hop => ?_
  split
  next a hash n => exact absurd rfl (h _ hop a hash)
  next => rfl

theorem unlinkedBlobs_of_within {K : List LocKind} {ops : List WriteOp} (h : Within K ops)
    (hK : .counter ∉ K) : unlinkedBlobs ops = [] :=
  unlinkedBlobs_of_loc fun op hop _ _ => h.loc_ne (by simpa using hK) op hop

theorem unlinkedBlobs_adjustOps (a : ℕ) (b m : ℤ) : unlinkedBlobs (Quota.adjustOps a b m) = [] := by
  refine unlinkedBlobs_of_loc fun op hop _ _ => ?_
  rcases Quota.loc_adjustOps hop with h | h <;> simp [h]

/-! ## Filing -/

section Filing
variable {a d n size : ℕ} {s : Records} {threading index : List WriteOp}
  {metadata : MessageMetadata} {data : MessageData} (hthread : ThreadOps a threading)
  (hindex : PostingOps a index)
include hthread hindex

theorem within_filingTail :
    Within [.thread, .counter, .posting] (threading ++
      [referenceOp metadata.blobHash, accountLinkOp a metadata.blobHash 1] ++
      Quota.adjustOps a size 1 ++ index) := by
  have hlinks : Within [.thread, .counter, .posting]
      [referenceOp metadata.blobHash, accountLinkOp a metadata.blobHash 1] :=
    (within_nil.cons (by simp [accountLinkOp])).cons (by simp [referenceOp])
  exact (((hthread.within.mono (by simp)).append hlinks).append
    ((within_adjustOps _ _).mono (by simp))).append (hindex.within.mono (by simp))

theorem within_filingOps :
    Within [.metadata, .data, .thread, .counter, .posting]
      (filingOps a d metadata data size threading index) :=
  .cons (by simp) (.cons (by simp)
    ((within_filingTail hthread hindex).mono (by simp)))

theorem within_filingRest :
    Within [.thread, .counter, .posting, .change] ((threading ++
      [referenceOp metadata.blobHash, accountLinkOp a metadata.blobHash 1] ++
      Quota.adjustOps a size 1 ++ index) ++ [changeOp a d n .insert]) :=
  ((within_filingTail hthread hindex).mono (by simp)).append
    (within_nil.cons (by simp [changeOp]))

theorem within_filingBatch :
    Within [.metadata, .data, .thread, .counter, .posting, .change]
      (filingBatch a d n metadata data size threading index) :=
  .cons (by simp) (.cons (by simp)
    ((within_filingRest hthread hindex).mono (by simp)))

theorem lookup_filed_data :
    (s.batch (filingBatch a d n metadata data size threading index)).lookup (.data a d) =
      some data := by
  rw [Records.lookup_batch]
  exact effects_set_last ((within_filingRest hthread hindex).loc_ne (by simp)) [_] _

theorem lookup_filed_metadata :
    (s.batch (filingBatch a d n metadata data size threading index)).lookup (.metadata a d) =
      some metadata := by
  rw [Records.lookup_batch]
  refine effects_set_last (fun op hop => ?_) [] _
  rcases mem_cons.1 hop with rfl | hop
  · simp
  · exact (within_filingRest hthread hindex).loc_ne (by simp) op hop

theorem lookup_filed_of_ne {l : Loc} (hl : l.kind ∉ [.thread, .counter, .posting, .change])
    (hdata : l ≠ .data a d) (hmetadata : l ≠ .metadata a d) :
    (s.batch (filingBatch a d n metadata data size threading index)).lookup l = s.lookup l := by
  rw [Records.lookup_batch]
  apply effects_of_ne
  intro op hop
  rcases mem_cons.1 hop with rfl | hop
  · exact hmetadata.symm
  rcases mem_cons.1 hop with rfl | hop
  · exact hdata.symm
  · exact (within_filingRest hthread hindex).loc_ne hl op hop

theorem unlinkedBlobs_filingBatch :
    unlinkedBlobs (filingBatch a d n metadata data size threading index) = [] := by
  have hrecords : unlinkedBlobs [.set (.metadata a d) metadata, .set (.data a d) data] = [] := rfl
  have hlinks : unlinkedBlobs
      [referenceOp metadata.blobHash, accountLinkOp a metadata.blobHash 1] = [] := rfl
  have hchange : unlinkedBlobs [changeOp a d n .insert] = [] := rfl
  simp only [filingBatch, filingOps, unlinkedBlobs_append, hrecords, hlinks, hchange,
    unlinkedBlobs_of_within hthread.within (by simp),
    unlinkedBlobs_of_within hindex.within (by simp), unlinkedBlobs_adjustOps, append_nil]

theorem counter_filed (c : CounterLoc) :
    (s.batch (filingBatch a d n metadata data size threading index)).counter c = s.counter c +
      ((if .refCount metadata.blobHash = c then 1 else 0) +
        (if .link a metadata.blobHash = c then 1 else 0) +
        (if .quotaBytes a = c then (size : ℤ) else 0) +
        if .quotaMessages a = c then 1 else 0) := by
  have hthread' := hthread.within
  have hindex' := hindex.within
  rw [Records.counter_batch]
  · simp only [filingBatch, filingOps, map_append, sum_append,
      hthread'.sum_amountAt (by simp) (by simp), hindex'.sum_amountAt (by simp) (by simp), Quota.sum_adjustOps]
    simp [amountAt, changeOp, referenceOp, accountLinkOp]
    ring
  · intro op hop
    simp only [filingBatch, filingOps, mem_append, mem_cons, not_mem_nil,
      or_false] at hop
    rcases hop with ((((((rfl | rfl) | h) | rfl | rfl) | h) | h) | rfl)
    · simp [WriteOp.Additive]
    · simp [WriteOp.Additive]
    · exact hthread'.additive (by simp) (by simp) op h
    · trivial
    · trivial
    · exact Quota.additive_adjustOps h
    · exact hindex'.additive (by simp) (by simp) op h
    · simp [changeOp, WriteOp.Additive]

end Filing

/-! ## Removal -/

section Removal
variable {a d n size : ℕ} {s : Records} {linked vanished : List WriteOp}
  {held : Option MessageMetadata}

theorem within_removalTail (hvanished : VanishedOps a vanished) :
    Within [.counter, .vanished, .change]
      (Quota.adjustOps a (-size) (-1) ++ vanished ++ [changeOp a d n .delete]) := by
  have hchange : Within [.counter, .vanished, .change] [changeOp a d n .delete] :=
    within_nil.cons (by simp [changeOp])
  exact (((within_adjustOps _ _).mono (by simp)).append (hvanished.within.mono (by simp))).append
    hchange

theorem removalBatch_eq :
    removalBatch a d n size linked vanished = linked ++ .delete (.data a d) ::
      .delete (.metadata a d) ::
        (Quota.adjustOps a (-size) (-1) ++ vanished ++ [changeOp a d n .delete]) := by
  simp [removalBatch, removalOps]

variable (hlinked : UnlinkOps a held linked) (hvanished : VanishedOps a vanished)

include hlinked hvanished in
theorem within_removalOps :
    Within [.posting, .counter, .data, .metadata, .vanished]
      (linked ++ removalOps a d size vanished) := by
  have hdeletes : Within [.posting, .counter, .data, .metadata, .vanished]
      [.delete (.data a d), .delete (.metadata a d)] :=
    (within_nil.cons (by simp)).cons (by simp)
  exact (hlinked.within.mono (by simp)).append ((hdeletes.append
    ((within_adjustOps _ _).mono (by simp))).append (hvanished.within.mono (by simp)))

include hlinked hvanished in
theorem within_removalBatch :
    Within [.posting, .counter, .data, .metadata, .vanished, .change]
      (removalBatch a d n size linked vanished) :=
  ((within_removalOps hlinked hvanished).mono (by simp)).append
    (within_nil.cons (by simp [changeOp]))

include hvanished in
theorem lookup_removed_data :
    (s.batch (removalBatch a d n size linked vanished)).lookup (.data a d) = none := by
  rw [removalBatch_eq, Records.lookup_batch]
  refine effects_delete_last (fun op hop => ?_) linked _
  rcases mem_cons.1 hop with rfl | hop
  · simp
  · exact (within_removalTail hvanished).loc_ne (by simp) op hop

include hvanished in
theorem lookup_removed_metadata :
    (s.batch (removalBatch a d n size linked vanished)).lookup (.metadata a d) = none := by
  rw [removalBatch_eq, Records.lookup_batch, append_cons]
  exact effects_delete_last ((within_removalTail hvanished).loc_ne (by simp)) _ _

include hlinked hvanished

theorem lookup_removed_of_ne {l : Loc}
    (hl : l.kind ∉ [.posting, .counter, .vanished, .change]) (hdata : l ≠ .data a d)
    (hmetadata : l ≠ .metadata a d) :
    (s.batch (removalBatch a d n size linked vanished)).lookup l = s.lookup l := by
  rw [removalBatch_eq, Records.lookup_batch]
  apply effects_of_ne
  intro op hop
  rcases mem_append.1 hop with hop | hop
  · exact (hlinked.within.mono (by simp)).loc_ne hl op hop
  rcases mem_cons.1 hop with rfl | hop
  · exact hdata.symm
  rcases mem_cons.1 hop with rfl | hop
  · exact hmetadata.symm
  · exact ((within_removalTail hvanished).mono (by simp)).loc_ne hl op hop

theorem lookup_removed_change {c : Collection} (hc : c ≠ .email) (b m : ℕ) :
    (s.batch (removalBatch a d n size linked vanished)).lookup (.change b c m) =
      s.lookup (.change b c m) := by
  rw [Records.lookup_batch]
  apply effects_of_ne
  intro op hop
  rcases mem_append.1 hop with hop | hop
  · exact (within_removalOps hlinked hvanished).loc_ne (by simp) op hop
  · rw [mem_singleton.1 hop]
    simp [changeOp, hc.symm]

omit hvanished in
theorem sum_linked (c : CounterLoc) :
    (linked.map (amountAt c)).sum =
      -(held.elim 0 fun m => if .link a m.blobHash = c then 1 else 0) := by
  cases held with
  | none =>
    obtain rfl : linked = [] := hlinked
    rfl
  | some m =>
    obtain ⟨index, hindex, rfl⟩ := hlinked
    simp only [map_append, sum_append, hindex.within.sum_amountAt (by simp) (by simp),
      accountLinkOp, map_cons, map_nil, sum_cons, sum_nil, amountAt_add,
      Option.elim_some]
    split <;> rfl

omit hvanished in
theorem additive_linked : ∀ op ∈ linked, op.Additive := by
  cases held with
  | none =>
    obtain rfl : linked = [] := hlinked
    simp
  | some m =>
    obtain ⟨index, hindex, rfl⟩ := hlinked
    intro op hop
    rcases mem_append.1 hop with hop | hop
    · exact hindex.within.additive (by simp) (by simp) op hop
    · rw [mem_singleton.1 hop]
      trivial

theorem unlinkedBlobs_removalBatch :
    unlinkedBlobs (removalBatch a d n size linked vanished) =
      held.toList.map MessageMetadata.blobHash := by
  have hrecords : unlinkedBlobs [.delete (.data a d), .delete (.metadata a d)] = [] := rfl
  have hchange : unlinkedBlobs [changeOp a d n .delete] = [] := rfl
  have hlinks : unlinkedBlobs linked = held.toList.map MessageMetadata.blobHash := by
    cases held with
    | none =>
      obtain rfl : linked = [] := hlinked
      rfl
    | some m =>
      obtain ⟨index, hindex, rfl⟩ := hlinked
      rw [unlinkedBlobs_append, unlinkedBlobs_of_within hindex.within (by simp)]
      rfl
  simp only [removalBatch, removalOps, unlinkedBlobs_append, hrecords, hlinks, hchange,
    unlinkedBlobs_of_within hvanished.within (by simp), unlinkedBlobs_adjustOps, append_nil]

theorem counter_removed (c : CounterLoc) :
    (s.batch (removalBatch a d n size linked vanished)).counter c = s.counter c -
      ((held.elim 0 fun m => if .link a m.blobHash = c then 1 else 0) +
        (if .quotaBytes a = c then (size : ℤ) else 0) +
        if .quotaMessages a = c then 1 else 0) := by
  have hlinks := sum_linked hlinked c
  have hvanish := hvanished.within.sum_amountAt (by simp) (by simp) c
  have hquota := Quota.sum_adjustOps a (-size) (-1) c
  rw [Records.counter_batch]
  · simp only [removalBatch, removalOps, map_append, sum_append, hquota,
      map_cons, map_nil, sum_cons, sum_nil, amountAt, changeOp]
    split <;> split <;> linarith
  · intro op hop
    simp only [removalBatch, removalOps, mem_append, mem_cons, not_mem_nil,
      or_false] at hop
    rcases hop with (h | ((rfl | rfl) | h) | h) | rfl
    · exact additive_linked hlinked op h
    · simp [WriteOp.Additive]
    · simp [WriteOp.Additive]
    · exact Quota.additive_adjustOps h
    · exact hvanished.within.additive (by simp) (by simp) op h
    · simp [changeOp, WriteOp.Additive]

end Removal

/-! ## Update -/

section Update
variable {P : MessageData → MessageData → Prop} {a lo : ℕ} {s t u : Records}
  {ops : List WriteOp}

theorem within_updateTail {d n : ℕ} {vanished : List WriteOp} (hvanished : VanishedOps a vanished) :
    Within [.vanished, .change] (vanished ++ [changeOp a d n .update]) :=
  (hvanished.within.mono (by simp)).append (within_nil.cons (by simp [changeOp]))

theorem within_updateBatch {d n : ℕ} {data : MessageData} {vanished : List WriteOp}
    (hvanished : VanishedOps a vanished) :
    Within [.data, .vanished, .change] (updateBatch a d n data vanished) := by
  exact .cons (by simp) ((within_updateTail hvanished).mono (by simp))

theorem effects_updateBatch_data {d n : ℕ} {data : MessageData} {vanished : List WriteOp}
    (hvanished : VanishedOps a vanished) (b e : ℕ) (x : Option MessageData) :
    effects (.data b e) (updateBatch a d n data vanished) x =
      if Loc.data a d = .data b e then some data else x := by
  have htail := (within_updateTail (d := d) (n := n) hvanished).effects_eq (l := .data b e) (by simp)
  rw [updateBatch, append_assoc, effects_append, htail]
  split
  next heq =>
    obtain ⟨rfl, rfl⟩ := Loc.data.inj heq
    exact effect_set_self _ _ _
  next hne => exact effect_set_of_ne hne _ _

theorem UpdateOps.loc (hops : UpdateOps P a s t lo ops) :
    ∀ op ∈ ops, (∃ e, op.loc = .data a e) ∨ (∃ m, op.loc = .vanished a m) ∨
      ∃ m, op.loc = .change a .email m := by
  induction hops with
  | nil lo => simp
  | cons hdata hP hvanished hlo hn hrest ih =>
    intro op hop
    simp only [updateBatch, mem_append, mem_singleton] at hop
    rcases hop with ((rfl | h) | rfl) | h
    · exact .inl ⟨_, rfl⟩
    · exact .inr (.inl (hvanished op h))
    · exact .inr (.inr ⟨_, rfl⟩)
    · exact ih op h

theorem lookup_updated_data (hops : UpdateOps P a s t lo ops) (b e : ℕ) :
    (u.batch ops).lookup (.data b e) = u.lookup (.data b e) ∨
      ∃ original data, s.lookup (.data b e) = some original ∧ P original data ∧
        (u.batch ops).lookup (.data b e) = some data := by
  induction hops generalizing u with
  | nil lo => exact .inl rfl
  | @cons lo d n original data vanished rest hdata hP hvanished hlo hn hrest ih =>
    rw [Records.batch_append]
    have hhead : (u.batch (updateBatch a d n data vanished)).lookup (.data b e) =
        if Loc.data a d = .data b e then some data else u.lookup (.data b e) := by
      rw [Records.lookup_batch, effects_updateBatch_data hvanished]
    rcases ih with hkept | hchanged
    · rw [hkept, hhead]
      split
      next heq =>
        obtain ⟨rfl, rfl⟩ := Loc.data.inj heq
        exact .inr ⟨original, data, hdata, hP, rfl⟩
      next => exact .inl rfl
    · exact .inr hchanged

theorem lookup_updated_of_ne (hops : UpdateOps P a s t lo ops) {l : Loc}
    (hdata : ∀ e, l ≠ .data a e) (hvanished : ∀ m, l ≠ .vanished a m)
    (hchange : ∀ m, l ≠ .change a .email m) : (u.batch ops).lookup l = u.lookup l := by
  rw [Records.lookup_batch]
  apply effects_of_ne
  intro op hop heq
  rcases hops.loc op hop with ⟨e, he⟩ | ⟨m, hm⟩ | ⟨m, hm⟩
  · exact hdata e (heq.symm.trans he)
  · exact hvanished m (heq.symm.trans hm)
  · exact hchange m (heq.symm.trans hm)

end Update
end IrixMail.Mail
