import IrixMail.Mail.Clients

/-!
# The purge sweep

The sweep scans the blob references once and then works through what it found:
dead reservations and links go first, then the blobs whose count is not positive,
and at last the blobs without any count. Nothing it found is looked at again
before it is deleted.
-/

namespace IrixMail.Mail
open Library Prog Store List

variable {rows : List (Sigma Val)}

def purgeGraceSecs : ℕ := 3600

structure RefScan where
  reserved : List BlobHash
  dead : List Loc
  orphans : List BlobHash

def RefScan.add (now : ℕ) (scan : RefScan) : Sigma Val → RefScan
  | ⟨.reservation a h, expires⟩ =>
    if h = [] then scan
    else if now < expires then { scan with reserved := scan.reserved ++ [h] }
    else { scan with dead := scan.dead ++ [.reservation a h] }
  | ⟨.counter (.link a h), n⟩ =>
    if h ≠ [] ∧ n ≤ 0 then { scan with dead := scan.dead ++ [.counter (.link a h)] } else scan
  | ⟨.counter (.refCount h), n⟩ =>
    if h ≠ [] ∧ n ≤ 0 then { scan with orphans := scan.orphans ++ [h] } else scan
  | _ => scan

def RefScan.of (now : ℕ) (rows : List (Sigma Val)) : RefScan :=
  rows.foldl (RefScan.add now) ⟨[], [], []⟩

def scanRefs (now : ℕ) : Action RefScan := do
  let rows ← exec (.iterate ⟨.blobRef, none, none⟩)
  pure (.of now rows)

def deleteDead : List Loc → Action Unit
  | [] => pure ()
  | l :: ls => do
    exec (.delete l)
    deleteDead ls

def destroyOrphan (h : BlobHash) : Action ℕ := do
  exec (.blobDelete h)
  exec (.delete (.counter (.refCount h)))
  pure 1

def purgeOrphan (now grace : ℕ) (reserved : List BlobHash) (h : BlobHash) : Action ℕ :=
  if h ∈ reserved then pure 0
  else do
    match ← exec (.blobModifiedAt h) with
    | some modified => if now - modified < grace then pure 0 else destroyOrphan h
    | none => destroyOrphan h

def purgeOrphansOf (now grace : ℕ) (reserved : List BlobHash) : List BlobHash → Action ℕ
  | [] => pure 0
  | h :: hs => do
    let purged ← purgeOrphan now grace reserved h
    let rest ← purgeOrphansOf now grace reserved hs
    pure (purged + rest)

def isStranded (now grace : ℕ) (reserved : List BlobHash) (h : BlobHash) : Action Bool := do
  match ← exec (.blobModifiedAt h) with
  | none => pure false
  | some modified =>
    if max grace 1 ≤ now - modified ∧ h ∉ reserved then do
      let count ← exec (.get (.counter (.refCount h)))
      pure count.isNone
    else pure false

def strandedAmong (now grace : ℕ) (reserved : List BlobHash) :
    List BlobHash → Action (List BlobHash)
  | [] => pure []
  | h :: hs => do
    let stranded ← isStranded now grace reserved h
    let rest ← strandedAmong now grace reserved hs
    pure (if stranded then h :: rest else rest)

def deleteBlobs : List BlobHash → Action Unit
  | [] => pure ()
  | h :: hs => do
    exec (.blobDelete h)
    deleteBlobs hs

def purgeOrphans (now grace : ℕ) : Action ℕ := do
  let scan ← scanRefs now
  deleteDead scan.dead
  let purged ← purgeOrphansOf now grace scan.reserved scan.orphans
  let hashes ← exec .blobHashes
  let stranded ← strandedAmong now grace scan.reserved hashes
  deleteBlobs stranded
  pure (purged + stranded.length)

def sweep (grace : ℕ) : Action ℕ := do
  let now ← exec .now
  purgeOrphans now grace

def purgePass : Action ℕ := sweep purgeGraceSecs

/-! ## What a scan finds -/

theorem RefScan.foldl_induction {P : RefScan → Prop} {now : ℕ} {scan : RefScan} (h : P scan)
    (hstep : ∀ s, ∀ row ∈ rows, P s → P (s.add now row)) :
    P (rows.foldl (RefScan.add now) scan) := by
  induction rows generalizing scan with
  | nil => exact h
  | cons row rows ih =>
    exact ih (hstep scan row mem_cons_self h) fun s x hx => hstep s x (mem_cons_of_mem _ hx)

variable {h : BlobHash} {c : Cmd}

theorem RefScan.count_of_orphan {now : ℕ} (horphan : h ∈ (RefScan.of now rows).orphans) :
    ∃ n : ℤ, (⟨.counter (.refCount h), n⟩ : Sigma Val) ∈ rows ∧ n ≤ 0 := by
  refine RefScan.foldl_induction (P := fun s => h ∈ s.orphans → ∃ n : ℤ,
    (⟨.counter (.refCount h), n⟩ : Sigma Val) ∈ rows ∧ n ≤ 0) (by simp) ?_ horphan
  intro s row hrow ih hmem
  unfold RefScan.add at hmem
  split at hmem
  next a b expires =>
    split at hmem
    · exact ih hmem
    · split at hmem <;> exact ih hmem
  next a b n => split at hmem <;> exact ih hmem
  next b n =>
    split at hmem
    next hn =>
      rcases mem_append.1 hmem with hmem | hmem
      · exact ih hmem
      · obtain rfl := mem_singleton.1 hmem
        exact ⟨n, hrow, hn.2⟩
    next => exact ih hmem
  next => exact ih hmem

theorem RefScan.reserved_add (now : ℕ) (s : RefScan) (row : Sigma Val)
    (hmem : h ∈ s.reserved) : h ∈ (s.add now row).reserved := by
  unfold RefScan.add
  repeat' split
  all_goals first | exact hmem | exact mem_append_left _ hmem

theorem RefScan.reserved_of_mem {now : ℕ} {a expires : ℕ}
    (hrow : (⟨.reservation a h, expires⟩ : Sigma Val) ∈ rows) (hne : h ≠ []) (hlive : now < expires)
    : h ∈ (RefScan.of now rows).reserved := by
  suffices hall : ∀ scan, h ∈ (rows.foldl (RefScan.add now) scan).reserved from hall _
  induction rows with
  | nil => cases hrow
  | cons row rows ih =>
    intro scan
    rcases mem_cons.1 hrow with rfl | hrow
    · change h ∈ (rows.foldl (RefScan.add now) (scan.add now ⟨.reservation a h, expires⟩)).reserved
      refine RefScan.foldl_induction (P := fun s => h ∈ s.reserved) ?_
        fun s row _ hs => s.reserved_add now row hs
      simp only [RefScan.add, if_neg hne, if_pos hlive]
      exact mem_append_right _ (mem_singleton_self h)
    · exact ih hrow _

/-! ## What a sweep may do -/

/-- A sweep reads, and deletes blobs, counts, links and reservations. -/
def Sweeps : Cmd → Prop
  | .blobDelete _ => True
  | .delete (.counter (.refCount _)) => True
  | .delete (.counter (.link _ _)) => True
  | .delete (.reservation _ _) => True
  | c => Quiet c

def Answered (c : Cmd) (r : c.Res) (t : Trace sig) : Prop := (⟨c, r⟩ : Access) ∈ t

/-- Nothing that the sweep has read protects the blob: no live reservation, and an
old file with a count that is not positive or with no count. -/
structure FoundDead (grace now : ℕ) (rows : List (Sigma Val)) (h : BlobHash) (t : Trace sig) :
    Prop where
  started : Answered .now now t
  scanned : Answered (.iterate ⟨.blobRef, none, none⟩) rows t
  unreserved : h ∉ (RefScan.of now rows).reserved
  found : (h ∈ (RefScan.of now rows).orphans ∧ ∃ modified : Option ℕ,
      Answered (.blobModifiedAt h) modified t ∧ ∀ m ∈ modified, grace ≤ now - m) ∨
    ((∃ m : ℕ, Answered (.blobModifiedAt h) (some m) t ∧ grace ≤ now - m) ∧
      Answered (.get (.counter (.refCount h))) none t)

def Purges (grace : ℕ) (t : Trace sig) : Cmd → Prop
  | .blobDelete h => ∃ now rows, FoundDead grace now rows h t
  | c => Sweeps c

theorem FoundDead.mono {grace now : ℕ} {t u : Trace sig} (hdead : FoundDead grace now rows h t)
    (htu : t ⊆ u) : FoundDead grace now rows h u := by
  refine ⟨htu hdead.started, htu hdead.scanned, hdead.unreserved, ?_⟩
  rcases hdead.found with ⟨horphan, modified, hread, hold⟩ | ⟨⟨m, hread, hold⟩, hcount⟩
  · exact .inl ⟨horphan, modified, htu hread, hold⟩
  · exact .inr ⟨⟨m, htu hread, hold⟩, htu hcount⟩

theorem Purges.sweeps {grace : ℕ} {t : Trace sig} (h : Purges grace t c) : Sweeps c := by
  cases c with
  | blobDelete => trivial
  | _ => exact h

theorem sweeps_of_quiet (h : Quiet c) : Sweeps c := by
  cases c with
  | delete l => exact h.elim
  | blobDelete => trivial
  | _ => exact h

theorem purges_of_quiet {grace : ℕ} (t : Trace sig) (c : Cmd) (h : Quiet c) : Purges grace t c := by
  cases c with
  | blobDelete => exact h.elim
  | _ => exact sweeps_of_quiet h

theorem RefScan.sweeps_dead (now : ℕ) (rows : List (Sigma Val)) :
    ∀ l ∈ (RefScan.of now rows).dead, Sweeps (.delete l) := by
  refine RefScan.foldl_induction (P := fun s => ∀ l ∈ s.dead, Sweeps (.delete l)) (by simp) ?_
  intro s row _ ih l hl
  unfold RefScan.add at hl
  split at hl
  next a b expires =>
    split at hl
    · exact ih l hl
    split at hl
    · exact ih l hl
    · rcases mem_append.1 hl with hl | hl
      · exact ih l hl
      · rw [mem_singleton.1 hl]
        trivial
  next a b n =>
    split at hl
    · rcases mem_append.1 hl with hl | hl
      · exact ih l hl
      · rw [mem_singleton.1 hl]
        trivial
    · exact ih l hl
  next b n => split at hl <;> exact ih l hl
  next => exact ih l hl

section Obeys
variable {grace now : ℕ} {rows : List (Sigma Val)} {E : Trace sig → Prop} {t : Trace sig}

theorem obeys_deleteDead {ls : List Loc} (h : ∀ l ∈ ls, Sweeps (.delete l)) :
    Obeys (Purges grace) E (fun _ _ => True) t (deleteDead ls) := by
  induction ls generalizing t with
  | nil => exact .ret trivial
  | cons l ls ih =>
    exact .perform (h l mem_cons_self) fun _ => ih fun k hk => h k (mem_cons_of_mem _ hk)

variable {h : BlobHash}

theorem obeys_destroyOrphan (hdead : FoundDead grace now rows h t) :
    Obeys (Purges grace) E (fun _ _ => True) t (destroyOrphan h) :=
  .perform ⟨now, rows, hdead⟩ fun _ => .perform trivial fun _ => .ret trivial

theorem obeys_purgeOrphan (hnow : Answered .now now t)
    (hrows : Answered (.iterate ⟨.blobRef, none, none⟩) rows t)
    (horphan : h ∈ (RefScan.of now rows).orphans) :
    Obeys (Purges grace) E (fun _ _ => True) t
      (purgeOrphan now grace (RefScan.of now rows).reserved h) := by
  unfold purgeOrphan
  split
  next => exact .ret trivial
  next hreserved =>
    refine .perform (purges_of_quiet t _ trivial) fun modified => ?_
    have hdead (hold : ∀ m ∈ modified, grace ≤ now - m) :
        FoundDead grace now rows h (⟨.blobModifiedAt h, modified⟩ :: t) :=
      ⟨mem_cons_of_mem _ hnow, mem_cons_of_mem _ hrows, hreserved,
        .inl ⟨horphan, modified, mem_cons_self, hold⟩⟩
    cases modified with
    | none => exact obeys_destroyOrphan (hdead (by simp))
    | some m =>
      dsimp only
      split
      next => exact .ret trivial
      next hold =>
        refine obeys_destroyOrphan (hdead fun x hx => ?_)
        obtain rfl := Option.mem_some_iff.1 hx
        omega

theorem obeys_purgeOrphansOf (hs : List BlobHash) (hnow : Answered .now now t)
    (hrows : Answered (.iterate ⟨.blobRef, none, none⟩) rows t)
    (horphans : ∀ h ∈ hs, h ∈ (RefScan.of now rows).orphans) :
    Obeys (Purges grace) E (fun _ _ => True) t
      (purgeOrphansOf now grace (RefScan.of now rows).reserved hs) := by
  induction hs generalizing t with
  | nil => exact .ret trivial
  | cons h hs ih =>
    refine (obeys_purgeOrphan hnow hrows (horphans h mem_cons_self)).andThen fun u _ htu _ => ?_
    have hrest := ih (htu.subset hnow) (htu.subset hrows)
      fun k hk => horphans k (mem_cons_of_mem _ hk)
    exact hrest.bind fun _ _ _ => .ret trivial

theorem obeys_isStranded (h : BlobHash) (hnow : Answered .now now t)
    (hrows : Answered (.iterate ⟨.blobRef, none, none⟩) rows t) :
    Obeys (Purges grace) E
      (fun u stranded => stranded = true → FoundDead grace now rows h u) t
      (isStranded now grace (RefScan.of now rows).reserved h) := by
  refine .perform (purges_of_quiet t _ trivial) fun modified => ?_
  have hsub := subset_cons_self (⟨.blobModifiedAt h, modified⟩ : Access) t
  cases modified with
  | none => exact .ret nofun
  | some m =>
    dsimp only
    split
    next hold =>
      refine .perform (purges_of_quiet _ _ trivial) fun count => .ret ?_
      have hsub' := subset_cons_self (⟨.get (.counter (.refCount h)), count⟩ : Access)
        (⟨.blobModifiedAt h, some m⟩ :: t)
      intro hnone
      obtain rfl := Option.isNone_iff_eq_none.1 hnone
      exact ⟨hsub' (hsub hnow), hsub' (hsub hrows), hold.2, .inr ⟨⟨m, hsub' mem_cons_self,
        (le_max_left _ _).trans hold.1⟩, mem_cons_self⟩⟩
    next => exact .ret nofun

theorem obeys_strandedAmong (hs : List BlobHash) (hnow : Answered .now now t)
    (hrows : Answered (.iterate ⟨.blobRef, none, none⟩) rows t) :
    Obeys (Purges grace) E
      (fun u found => ∀ h ∈ found, FoundDead grace now rows h u) t
      (strandedAmong now grace (RefScan.of now rows).reserved hs) := by
  induction hs generalizing t with
  | nil => exact .ret (by simp)
  | cons h hs ih =>
    refine (obeys_isStranded h hnow hrows).andThen fun u stranded htu hdead => ?_
    refine (ih (htu.subset hnow) (htu.subset hrows)).andThen fun v found huv hfound => .ret ?_
    cases stranded with
    | false => exact hfound
    | true => exact forall_mem_cons.2 ⟨(hdead rfl).mono huv.subset, hfound⟩

theorem obeys_deleteBlobs (hs : List BlobHash) (h : ∀ k ∈ hs, FoundDead grace now rows k t) :
    Obeys (Purges grace) E (fun _ _ => True) t (deleteBlobs hs) := by
  induction hs generalizing t with
  | nil => exact .ret trivial
  | cons k ks ih =>
    refine .perform ⟨now, rows, h k mem_cons_self⟩ fun _ => ih fun x hx => ?_
    exact (h x (mem_cons_of_mem _ hx)).mono (subset_cons_self _ t)

theorem obeys_purgeOrphans (hnow : Answered .now now t) :
    Obeys (Purges grace) E (fun _ _ => True) t (purgeOrphans now grace) := by
  unfold purgeOrphans scanRefs
  simp only [bind_assoc]
  refine .perform (purges_of_quiet t _ trivial) fun rows => ?_
  -- from here on the clock reading and the scan are behind the sweep
  generalize hstart : (⟨.iterate ⟨.blobRef, none, none⟩, rows⟩ :: t : Trace sig) = start
  have hnow' : Answered .now now start := hstart ▸ mem_cons_of_mem _ hnow
  have hrows : Answered (.iterate ⟨.blobRef, none, none⟩) rows start := hstart ▸ mem_cons_self
  refine (obeys_deleteDead (RefScan.sweeps_dead now rows)).andThen fun u _ hu _ => ?_
  refine (obeys_purgeOrphansOf _ (hu.subset hnow') (hu.subset hrows) fun _ h => h).andThen
    fun v purged hv _ => ?_
  refine .perform (purges_of_quiet v _ trivial) fun hashes => ?_
  have hsub := (hu.trans (hv.trans (suffix_cons (⟨.blobHashes, hashes⟩ : Access) v))).subset
  refine (obeys_strandedAmong hashes (hsub hnow') (hsub hrows)).bind fun w stranded hfound => ?_
  exact (obeys_deleteBlobs stranded hfound).bind fun _ _ _ => .ret trivial

end Obeys

theorem obeys_sweep (grace : ℕ) (E : Trace sig → Prop) :
    Obeys (Purges grace) E (fun _ _ => True) [] (sweep grace) :=
  .perform (purges_of_quiet [] _ trivial) fun _ => obeys_purgeOrphans mem_cons_self

end IrixMail.Mail
