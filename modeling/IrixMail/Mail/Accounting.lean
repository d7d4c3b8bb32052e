import IrixMail.Mail.Batches

/-!
# Storage accounting

The quota counters of an account, the reference counter of a blob and the link
counter of an account and a blob are kept beside the records they count. The
drift of a counter is how far it is from what it counts: a filing keeps it, a
removal leaves it one too high at the blob until the reference is released.
`Accounted` says that nothing has drifted.
-/

namespace IrixMail.Mail
open Library Prog Store

/-! ## Totals over the message records -/

def dataWeight (g : ℕ → MessageData → ℤ) : (l : Loc) → Val l → ℤ
  | .data a _, v => g a v
  | _, _ => 0

def metadataWeight (g : ℕ → MessageMetadata → ℤ) : (l : Loc) → Val l → ℤ
  | .metadata a _, v => g a v
  | _, _ => 0

variable {s t : Records}

theorem total_data_update (g : ℕ → MessageData → ℤ) (a d : ℕ)
    (h : ∀ b e, (b, e) ≠ (a, d) → t.lookup (.data b e) = s.lookup (.data b e)) :
    Table.total (dataWeight g) t = Table.total (dataWeight g) s -
      (s.lookup (.data a d)).elim 0 (g a) + (t.lookup (.data a d)).elim 0 (g a) := by
  have hupdate := Table.total_update (dataWeight g) (s := s) (t := t) (.data a d) fun l hl => ?_
  · rw [hupdate]
    cases s.lookup (.data a d) <;> cases t.lookup (.data a d) <;> rfl
  · cases l with
    | data b e => exact .inl (h b e fun hbe => hl (by simpa using hbe))
    | _ => exact .inr fun _ => rfl

theorem total_metadata_update (g : ℕ → MessageMetadata → ℤ) (a d : ℕ)
    (h : ∀ b e, (b, e) ≠ (a, d) → t.lookup (.metadata b e) = s.lookup (.metadata b e)) :
    Table.total (metadataWeight g) t = Table.total (metadataWeight g) s -
      (s.lookup (.metadata a d)).elim 0 (g a) + (t.lookup (.metadata a d)).elim 0 (g a) := by
  have hupdate := Table.total_update (metadataWeight g) (s := s) (t := t) (.metadata a d)
    fun l hl => ?_
  · rw [hupdate]
    cases s.lookup (.metadata a d) <;> cases t.lookup (.metadata a d) <;> rfl
  · cases l with
    | metadata b e => exact .inl (h b e fun hbe => hl (by simpa using hbe))
    | _ => exact .inr fun _ => rfl

/-! ## What the counters count -/

def storedBytes (s : Records) (a : ℕ) : ℤ :=
  Table.total (dataWeight fun b v => if b = a then v.size else 0) s

def storedMessages (s : Records) (a : ℕ) : ℤ :=
  Table.total (dataWeight fun b _ => if b = a then 1 else 0) s

def holders (s : Records) (h : BlobHash) : ℤ :=
  Table.total (metadataWeight fun _ v => if v.blobHash = h then 1 else 0) s

def accountHolders (s : Records) (a : ℕ) (h : BlobHash) : ℤ :=
  Table.total (metadataWeight fun b v => if b = a ∧ v.blobHash = h then 1 else 0) s

def countsMessages : CounterLoc → Bool
  | .quotaBytes _ | .quotaMessages _ | .refCount _ | .link _ _ => true
  | _ => false

def counted (s : Records) : CounterLoc → ℤ
  | .quotaBytes a => storedBytes s a
  | .quotaMessages a => storedMessages s a
  | .refCount h => holders s h
  | .link a h => accountHolders s a h
  | _ => 0

def tally (a : ℕ) (data : Option MessageData) (metadata : Option MessageMetadata) : CounterLoc → ℤ
  | .quotaBytes b => data.elim 0 fun v => if a = b then v.size else 0
  | .quotaMessages b => data.elim 0 fun _ => if a = b then 1 else 0
  | .refCount h => metadata.elim 0 fun m => if m.blobHash = h then 1 else 0
  | .link b h => metadata.elim 0 fun m => if a = b ∧ m.blobHash = h then 1 else 0
  | _ => 0

def heldAt (held : Option MessageMetadata) (c : CounterLoc) : ℤ :=
  held.elim 0 fun m => if .refCount m.blobHash = c then 1 else 0

theorem tally_filed (a : ℕ) (data : MessageData) (m : MessageMetadata) (c : CounterLoc) :
    tally a (some data) (some m) c = (if .refCount m.blobHash = c then 1 else 0) +
      (if .link a m.blobHash = c then 1 else 0) + (if .quotaBytes a = c then (data.size : ℤ) else 0) +
      if .quotaMessages a = c then 1 else 0 := by
  cases c <;> simp [tally]

theorem tally_removed (a : ℕ) (data : MessageData) (held : Option MessageMetadata)
    (c : CounterLoc) :
    tally a (some data) held c = heldAt held c +
      ((held.elim 0 fun m => if .link a m.blobHash = c then 1 else 0) +
        (if .quotaBytes a = c then (data.size : ℤ) else 0) + if .quotaMessages a = c then 1 else 0) := by
  cases held <;> cases c <;> simp [tally, heldAt]

theorem tally_none (a : ℕ) (c : CounterLoc) : tally a none none c = 0 := by
  cases c <;> rfl

theorem tally_nonneg (a : ℕ) (data : Option MessageData) (metadata : Option MessageMetadata)
    (c : CounterLoc) : 0 ≤ tally a data metadata c := by
  cases c <;> cases data <;> cases metadata <;> simp only [tally, Option.elim] <;> repeat' split
  all_goals omega

theorem counted_update (a d : ℕ)
    (hdata : ∀ b e, (b, e) ≠ (a, d) → t.lookup (.data b e) = s.lookup (.data b e))
    (hmetadata : ∀ b e, (b, e) ≠ (a, d) → t.lookup (.metadata b e) = s.lookup (.metadata b e))
    (c : CounterLoc) :
    counted t c = counted s c - tally a (s.lookup (.data a d)) (s.lookup (.metadata a d)) c +
      tally a (t.lookup (.data a d)) (t.lookup (.metadata a d)) c := by
  cases c with
  | number _ _ _ => rfl
  | inbound _ => rfl
  | outbound _ => rfl
  | quotaBytes b => exact total_data_update _ a d hdata
  | quotaMessages b => exact total_data_update _ a d hdata
  | refCount h => exact total_metadata_update _ a d hmetadata
  | link b h => exact total_metadata_update _ a d hmetadata

theorem counted_congr (hdata : ∀ a d, (t.lookup (.data a d)).map MessageData.size =
      (s.lookup (.data a d)).map MessageData.size)
    (hmetadata : ∀ a d, t.lookup (.metadata a d) = s.lookup (.metadata a d)) (c : CounterLoc) :
    counted t c = counted s c := by
  have hsizes : ∀ g : ℕ → ℕ → ℤ, Table.total (dataWeight fun b v => g b v.size) t =
      Table.total (dataWeight fun b v => g b v.size) s := fun g => Table.total_congr _ fun l => by
    cases l with
    | data b e =>
      have h := hdata b e
      cases hs' : s.lookup (.data b e) <;> cases ht' : t.lookup (.data b e) <;>
        simp_all [dataWeight]
    | _ => cases s.lookup _ <;> cases t.lookup _ <;> rfl
  have hblobs : ∀ g, Table.total (metadataWeight g) t = Table.total (metadataWeight g) s :=
    fun g => Table.total_congr _ fun l => by
      cases l with
      | metadata b e => rw [hmetadata b e]
      | _ => cases s.lookup _ <;> cases t.lookup _ <;> rfl
  cases c with
  | number _ _ _ => rfl
  | inbound _ => rfl
  | outbound _ => rfl
  | quotaBytes b => exact hsizes fun a size => if a = b then size else 0
  | quotaMessages b => exact hsizes fun a _ => if a = b then 1 else 0
  | refCount h => exact hblobs _
  | link b h => exact hblobs _

/-! ## Drift -/

def drift (s : Records) (c : CounterLoc) : ℤ := s.counter c - counted s c

theorem counter_eq (s : Records) (c : CounterLoc) : s.counter c = counted s c + drift s c := by
  rw [drift]
  ring

theorem drift_calm (h : Calm s t) {c : CounterLoc} (hc : countsMessages c) :
    drift t c = drift s c := by
  have hcounter : t.counter c = s.counter c := h.counter fun a k d heq => by simp [heq, countsMessages] at hc
  rw [drift, drift, hcounter, counted_congr (fun a d => by rw [h.data]) h.metadata]

section
variable {s : Records} {a d n : ℕ} {data : MessageData}

theorem drift_filed {metadata : MessageMetadata} {size : ℕ} {threading index : List WriteOp}
    (hdata : s.lookup (.data a d) = none) (hmetadata : s.lookup (.metadata a d) = none)
    (hthread : ThreadOps a threading) (hindex : PostingOps a index) {c : CounterLoc}
    (hsize : .quotaBytes a = c → data.size = size) :
    drift (s.batch (filingBatch a d n metadata data size threading index)) c = drift s c := by
  have hcounted := counted_update (s := s)
    (t := s.batch (filingBatch a d n metadata data size threading index)) a d
    (fun b e hbe => lookup_filed_of_ne hthread hindex (by simp) (by simpa using hbe) (by simp))
    (fun b e hbe => lookup_filed_of_ne hthread hindex (by simp) (by simp) (by simpa using hbe)) c
  rw [hdata, hmetadata, lookup_filed_data hthread hindex, lookup_filed_metadata hthread hindex,
    tally_none, tally_filed] at hcounted
  have hbytes : (if .quotaBytes a = c then (data.size : ℤ) else 0) =
      if .quotaBytes a = c then (size : ℤ) else 0 := by
    split
    next h => rw [hsize h]
    next => rfl
  rw [drift, drift, hcounted, counter_filed hthread hindex, hbytes]
  ring

theorem drift_removed {held : Option MessageMetadata} {linked vanished : List WriteOp}
    (hdata : s.lookup (.data a d) = some data) (hmetadata : s.lookup (.metadata a d) = held)
    (hlinked : UnlinkOps a held linked) (hvanished : VanishedOps a vanished) (c : CounterLoc) :
    drift (s.batch (removalBatch a d n data.size linked vanished)) c =
      drift s c + heldAt held c := by
  have hcounted := counted_update (s := s)
    (t := s.batch (removalBatch a d n data.size linked vanished)) a d
    (fun b e hbe => lookup_removed_of_ne hlinked hvanished (by simp) (by simpa using hbe) (by simp))
    (fun b e hbe => lookup_removed_of_ne hlinked hvanished (by simp) (by simp) (by simpa using hbe)) c
  rw [hdata, hmetadata, lookup_removed_data hvanished, lookup_removed_metadata hvanished,
    tally_none, tally_removed] at hcounted
  rw [drift, drift, hcounted, counter_removed hlinked hvanished]
  ring

theorem drift_released (held : Option MessageMetadata) (c : CounterLoc) :
    drift (s.batch (releaseOps held)) c = drift s c - heldAt held c := by
  have hcounted : counted (s.batch (releaseOps held)) c = counted s c :=
    counted_congr (fun a d => by rw [lookup_released (by simp)])
      (fun a d => lookup_released (by simp)) c
  rw [drift, drift, hcounted, counter_released, heldAt]
  ring

end

/-! ## The invariant -/

theorem holders_pos {a d : ℕ} {m : MessageMetadata}
    (h : s.lookup (.metadata a d) = some m) : 0 < holders s m.blobHash := by
  have hle := Table.weight_le_total (f := metadataWeight fun _ v => if v.blobHash = m.blobHash then 1 else 0)
    (fun l v => ?_) h
  · have hone : 1 ≤ holders s m.blobHash := by simpa [metadataWeight, holders] using hle
    omega
  · cases l with
    | metadata b e => simp only [metadataWeight]; split <;> omega
    | _ => exact le_rfl

theorem counted_nonneg (s : Records) (c : CounterLoc) : 0 ≤ counted s c := by
  have hdata : ∀ g : ℕ → MessageData → ℤ, (∀ a v, 0 ≤ g a v) →
      0 ≤ Table.total (dataWeight g) s := fun g hg => Table.total_nonneg (fun l v => by
    cases l with
    | data a d => exact hg a v
    | _ => exact le_rfl) s
  have hmetadata : ∀ g : ℕ → MessageMetadata → ℤ, (∀ a v, 0 ≤ g a v) →
      0 ≤ Table.total (metadataWeight g) s := fun g hg => Table.total_nonneg (fun l v => by
    cases l with
    | metadata a d => exact hg a v
    | _ => exact le_rfl) s
  cases c with
  | quotaBytes _ => exact hdata _ fun a v => by split <;> omega
  | quotaMessages _ => exact hdata _ fun a v => by split <;> omega
  | refCount _ => exact hmetadata _ fun a v => by split <;> omega
  | link _ _ => exact hmetadata _ fun a v => by split <;> omega
  | _ => exact le_rfl

structure Accounted (s : Records) : Prop where
  bytes : ∀ a, s.counter (.quotaBytes a) = storedBytes s a
  messages : ∀ a, s.counter (.quotaMessages a) = storedMessages s a
  references : ∀ h, s.counter (.refCount h) = holders s h
  links : ∀ a h, s.counter (.link a h) = accountHolders s a h
  paired : ∀ a d, (s.lookup (.data a d)).isSome ↔ (s.lookup (.metadata a d)).isSome

theorem accounted_empty : Accounted (∅ : Records) :=
  ⟨fun _ => rfl, fun _ => rfl, fun _ => rfl, fun _ _ => rfl, fun _ _ => by simp⟩

theorem accounted_iff : Accounted s ↔ (∀ c, countsMessages c → drift s c = 0) ∧
    ∀ a d, (s.lookup (.data a d)).isSome ↔ (s.lookup (.metadata a d)).isSome := by
  constructor
  · intro h
    refine ⟨fun c hc => sub_eq_zero.2 ?_, h.paired⟩
    cases c with
    | number _ _ _ => cases hc
    | inbound _ => cases hc
    | outbound _ => cases hc
    | quotaBytes a => exact h.bytes a
    | quotaMessages a => exact h.messages a
    | refCount b => exact h.references b
    | link a b => exact h.links a b
  · rintro ⟨h, hpaired⟩
    exact ⟨fun a => sub_eq_zero.1 (h _ rfl), fun a => sub_eq_zero.1 (h _ rfl),
      fun b => sub_eq_zero.1 (h _ rfl), fun a b => sub_eq_zero.1 (h _ rfl), hpaired⟩

/-! ## Preservation -/

theorem Accounted.drift_eq (hs : Accounted s) {c : CounterLoc}
    (hc : countsMessages c) : drift s c = 0 := (accounted_iff.1 hs).1 c hc

theorem Accounted.calm (hs : Accounted s) (h : Calm s t) : Accounted t := by
  refine accounted_iff.2 ⟨fun c hc => (drift_calm h hc).trans (hs.drift_eq hc), fun a d => ?_⟩
  rw [h.data, h.metadata]
  exact hs.paired a d

theorem Accounted.metadata_none (hs : Accounted s) {a d : ℕ}
    (h : s.lookup (.data a d) = none) : s.lookup (.metadata a d) = none := by
  have hpaired := hs.paired a d
  rw [h] at hpaired
  simpa using hpaired

section
variable {s t : Records} {a d n : ℕ} {data : MessageData}

theorem Accounted.file (hs : Accounted s) {metadata : MessageMetadata} {size : ℕ}
    {threading index : List WriteOp} (hfree : s.lookup (.data a d) = none)
    (hsize : data.size = size) (hthread : ThreadOps a threading) (hindex : PostingOps a index) :
    Accounted (s.batch (filingBatch a d n metadata data size threading index)) := by
  refine accounted_iff.2 ⟨fun c hc => ?_, fun b e => ?_⟩
  · rw [drift_filed hfree (hs.metadata_none hfree) hthread hindex fun _ => hsize, hs.drift_eq hc]
  · by_cases hbe : (b, e) = (a, d)
    · obtain ⟨rfl, rfl⟩ := Prod.mk.inj hbe
      rw [lookup_filed_data hthread hindex, lookup_filed_metadata hthread hindex]
      simp
    · rw [lookup_filed_of_ne hthread hindex (by simp) (by simpa using hbe) (by simp),
        lookup_filed_of_ne hthread hindex (by simp) (by simp) (by simpa using hbe)]
      exact hs.paired b e

theorem Accounted.update (hs : Accounted s) (h : Calm s t) {lo : ℕ} {ops : List WriteOp}
    (hops : UpdateOps (fun x y => y.size = x.size) a s t lo ops) : Accounted (t.batch ops) := by
  have ht := hs.calm h
  have hdata : ∀ b e, ((t.batch ops).lookup (.data b e)).map MessageData.size =
      (t.lookup (.data b e)).map MessageData.size := by
    intro b e
    rcases lookup_updated_data hops b e with hkept | ⟨original, data, horiginal, hsize, hdata⟩
    · rw [hkept]
    · rw [hdata, h.data, horiginal, Option.map_some, Option.map_some, hsize]
  have hmetadata : ∀ b e, (t.batch ops).lookup (.metadata b e) = t.lookup (.metadata b e) :=
    fun b e => lookup_updated_of_ne hops (by simp) (by simp) (by simp)
  refine accounted_iff.2 ⟨fun c hc => ?_, fun b e => ?_⟩
  · rw [drift, counted_congr hdata hmetadata, Records.counter,
      lookup_updated_of_ne hops (by simp) (by simp) (by simp)]
    exact ht.drift_eq hc
  · have hsome := congrArg Option.isSome (hdata b e)
    rw [Option.isSome_map, Option.isSome_map] at hsome
    rw [hsome, hmetadata]
    exact ht.paired b e

theorem Accounted.remove (hs : Accounted s) {held : Option MessageMetadata}
    {linked vanished : List WriteOp} (hdata : s.lookup (.data a d) = some data)
    (hmetadata : s.lookup (.metadata a d) = held) (hlinked : UnlinkOps a held linked)
    (hvanished : VanishedOps a vanished) :
    Accounted ((s.batch (removalBatch a d n data.size linked vanished)).batch
      (releaseOps held)) := by
  refine accounted_iff.2 ⟨fun c hc => ?_, fun b e => ?_⟩
  · rw [drift_released, drift_removed hdata hmetadata hlinked hvanished, add_sub_cancel_right,
      hs.drift_eq hc]
  · rw [lookup_released (by simp), lookup_released (by simp)]
    by_cases hbe : (b, e) = (a, d)
    · obtain ⟨rfl, rfl⟩ := Prod.mk.inj hbe
      rw [lookup_removed_data hvanished, lookup_removed_metadata hvanished]
      simp
    · rw [lookup_removed_of_ne hlinked hvanished (by simp) (by simpa using hbe) (by simp),
        lookup_removed_of_ne hlinked hvanished (by simp) (by simp) (by simpa using hbe)]
      exact hs.paired b e

end
end IrixMail.Mail
