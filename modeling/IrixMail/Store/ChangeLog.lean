import IrixMail.Store.World

/-!
# The change log

Every change of a collection gets an id from the counter of the collection and a
log entry under that id. Drawing the id and writing the entry are two commands:
`recordOp` draws the id and hands the write to the caller's batch.
-/

namespace IrixMail.Store
open Library Prog List

structure ChangeLogEntry where
  changeId : ℕ
  documentId : ℕ
  kind : ChangeKind
  deriving DecidableEq

structure VanishedEntry where
  changeId : ℕ
  mailboxId : ℕ
  uid : ℕ
  deriving DecidableEq

namespace ChangeLog

def counterLoc (a : ℕ) (c : Collection) : CounterLoc := .number a c 0

def allocateChangeId (a : ℕ) (c : Collection) : Action ℕ := do
  let next ← exec (.addAndGet (counterLoc a c) 1)
  pure (max next 1).toNat

def recordOp (a : ℕ) (c : Collection) (documentId : ℕ) (kind : ChangeKind) :
    Action (ℕ × WriteOp) := do
  let changeId ← allocateChangeId a c
  pure (changeId, .set (.change a c changeId) ⟨documentId, kind⟩)

def record (a : ℕ) (c : Collection) (documentId : ℕ) (kind : ChangeKind) : Action ℕ := do
  let changeId ← allocateChangeId a c
  exec (.put (.change a c changeId) ⟨documentId, kind⟩)
  pure changeId

def recordVanishedOp (a mailboxId uid : ℕ) : Action (ℕ × WriteOp) := do
  let changeId ← allocateChangeId a .email
  pure (changeId, .set (.vanished a changeId) ⟨mailboxId, uid⟩)

def logRow : Sigma Val → Option (ℕ × (ChangeValue ⊕ VanishedValue))
  | ⟨.change _ _ n, v⟩ => some (n, .inl v)
  | ⟨.vanished _ n, v⟩ => some (n, .inr v)
  | _ => none

/-- One page of entries after `since`, and whether there are more. No bound on
the page stands for `usize::MAX`. -/
def readPage (since : ℕ) (bound : Option ℕ) :
    List ChangeLogEntry → List (Sigma Val) → Except Error (List ChangeLogEntry × Bool)
  | entries, [] => .ok (entries, false)
  | entries, row :: rows =>
    match logRow row with
    | none => readPage since bound entries rows
    | some (n, value) =>
      if n ≤ since then readPage since bound entries rows
      else if bound = some entries.length then .ok (entries, true)
      else
        match value with
        | .inl v => readPage since bound (entries ++ [⟨n, v.documentId, v.kind⟩]) rows
        | .inr _ => .error (.store "change-log entry has 8 bytes, expected 5")

def changesPage (a : ℕ) (c : Collection) (since : ℕ) (bound : Option ℕ) :
    Action (List ChangeLogEntry × Bool) :=
  if bound = some 0 then pure ([], true)
  else do
    let rows ← exec (.iterate (.ofCollection .changeLog a c))
    checked (readPage since bound [] rows)

def changesSince (a : ℕ) (c : Collection) (since : ℕ) : Action (List ChangeLogEntry) := do
  let page ← changesPage a c since none
  pure page.1

/-- The tombstones of a scan, after `since`. -/
def readVanished (since : ℕ) : List (Sigma Val) → Except Error (List VanishedEntry)
  | [] => .ok []
  | row :: rows =>
    match logRow row with
    | none => readVanished since rows
    | some (n, value) =>
      if n ≤ since then readVanished since rows
      else
        match value with
        | .inr v => (readVanished since rows).map (⟨n, v.mailboxId, v.uid⟩ :: ·)
        | .inl _ => .error (.store "vanished entry value is malformed")

def vanishedSince (a since : ℕ) : Action (List VanishedEntry) := do
  let rows ← exec (.iterate (.ofCollection .changeLog a .emailVanished))
  checked (readVanished since rows)

def latestChangeId (a : ℕ) (c : Collection) : Action ℕ := do
  let counter ← exec (.counter (counterLoc a c))
  pure (max counter 0).toNat

def floor (a : ℕ) (c : Collection) : Action ℕ := do
  let stored ← exec (.get (.floor a c))
  pure (stored.getD 0)

def canCalculate (a : ℕ) (c : Collection) (since : ℕ) : Action Bool := do
  let floor ← floor a c
  pure (decide (floor ≤ since))

def counterSource : Collection → Collection
  | .emailVanished => .email
  | other => other

def pruneOps (cutoff : ℕ) : List (Sigma Val) → List WriteOp
  | [] => []
  | row :: rows =>
    match logRow row with
    | none => pruneOps cutoff rows
    | some (n, _) => if n ≤ cutoff then .delete row.1 :: pruneOps cutoff rows else []

def prune (a : ℕ) (c : Collection) (keepLast : ℕ) : Action ℕ := do
  let latest ← latestChangeId a (counterSource c)
  let cutoff := latest - max keepLast 1
  if cutoff = 0 then pure 0
  else do
    let rows ← exec (.iterate (.ofCollection .changeLog a c))
    let ops := pruneOps cutoff rows
    if ops.isEmpty then pure 0
    else do
      let stored ← floor a c
      exec (.batch (ops ++ [.set (.floor a c) (max stored cutoff)]))
      pure ops.length

def partitionOf : Sigma Val → Option (ℕ × Collection)
  | ⟨.change a c _, _⟩ => some (a, c)
  | ⟨.vanished a _, _⟩ => some (a, .emailVanished)
  | _ => none

def partitions : Option (ℕ × Collection) → List (Sigma Val) → List (ℕ × Collection)
  | _, [] => []
  | current, row :: rows =>
    match partitionOf row with
    | none => partitions current rows
    | some p => if current = some p then partitions current rows else p :: partitions (some p) rows

def pruneAll (keepLast : ℕ) : List (ℕ × Collection) → ℕ → Action ℕ
  | [], pruned => pure pruned
  | (a, c) :: ps, pruned => do
    let n ← prune a c keepLast
    pruneAll keepLast ps (pruned + n)

def pruneChangeLogs (keepLast : ℕ) : Action ℕ := do
  let rows ← exec (.iterate ⟨.changeLog, none, none⟩)
  pruneAll keepLast (partitions none rows) 0

/-! ## What the log answers -/

section Rows
variable {a : ℕ} {c : Collection}

theorem loc_of_mem_iterate {s : Records} {row : Sigma Val}
    (h : row ∈ s.iterate (.ofCollection .changeLog a c)) :
    (∃ n, row.1 = .change a c n) ∨ c = .emailVanished ∧ ∃ n, row.1 = .vanished a n := by
  obtain ⟨l, v⟩ := row
  have hkey := (Records.mem_iterate.1 h).1
  cases l with
  | change b k n =>
    simp only [KeyPrefix.ofCollection, KeyPrefix.encode, Loc.encode, Key.encode,
      cons_prefix_cons, nil_prefix, and_true, true_and] at hkey
    obtain ⟨rfl, hk⟩ := hkey
    obtain rfl := Collection.asByte_injective hk
    exact .inl ⟨n, rfl⟩
  | vanished b n =>
    simp only [KeyPrefix.ofCollection, KeyPrefix.encode, Loc.encode, Key.encode,
      cons_prefix_cons, nil_prefix, and_true, true_and] at hkey
    obtain ⟨rfl, hk⟩ := hkey
    exact .inr ⟨Collection.asByte_injective hk, n, rfl⟩
  | counter k =>
    cases k <;> simp [KeyPrefix.ofCollection, KeyPrefix.encode, Loc.encode, CounterLoc.key,
      Key.encode, Subspace.asByte] at hkey
  | _ =>
    simp [KeyPrefix.ofCollection, KeyPrefix.encode, Loc.encode, Key.encode, Subspace.asByte] at hkey

theorem change_of_mem_iterate {s : Records} (hc : c ≠ .emailVanished) :
    ∀ row ∈ s.iterate (.ofCollection .changeLog a c), ∃ n, row.1 = .change a c n :=
  fun _ hrow => (loc_of_mem_iterate hrow).resolve_right fun h => hc h.1

def entryOf (since : ℕ) : Sigma Val → Option ChangeLogEntry
  | ⟨.change _ _ n, v⟩ => if n ≤ since then none else some ⟨n, v.documentId, v.kind⟩
  | _ => none

/-- At most `bound` entries, and whether there are more. -/
def pageOf (bound : Option ℕ) (entries : List ChangeLogEntry) : List ChangeLogEntry × Bool :=
  let size := bound.getD (entries.length + 1)
  (entries.take size, decide (size < entries.length))

theorem readPage_eq (since : ℕ) {bound : Option ℕ} {rows : List (Sigma Val)}
    (h : ∀ row ∈ rows, ∃ n, row.1 = .change a c n) (entries : List ChangeLogEntry)
    (hbound : ∀ m ∈ bound, entries.length ≤ m) :
    readPage since bound entries rows =
      .ok (pageOf bound (entries ++ rows.filterMap (entryOf since))) := by
  induction rows generalizing entries with
  | nil =>
    cases bound with
    | none => simp [readPage, pageOf]
    | some m => simp [readPage, pageOf, hbound m rfl]
  | cons row rows ih =>
    have hrows := fun entries => ih (fun r hr => h r (mem_cons_of_mem _ hr)) entries
    obtain ⟨l, v⟩ := row
    obtain ⟨n, rfl⟩ : ∃ n, l = .change a c n := h _ mem_cons_self
    by_cases hn : n ≤ since
    · simp [readPage, logRow, entryOf, hn, hrows entries hbound]
    · by_cases hfull : bound = some entries.length
      · subst hfull
        simp [readPage, logRow, entryOf, hn, pageOf]
      · have hlen : ∀ m ∈ bound, (entries ++ [ChangeLogEntry.mk n v.documentId v.kind]).length ≤ m := by
          rintro m rfl
          have hle := hbound m rfl
          rw [length_append]
          exact lt_of_le_of_ne hle fun heq => hfull (congrArg some heq.symm)
        simp [readPage, logRow, entryOf, hn, hfull, hrows _ hlen]

/-- The entries of the log after `since`, in the order of the scan. -/
def changesOf (s : Records) (a : ℕ) (c : Collection) (since : ℕ) : List ChangeLogEntry :=
  (s.iterate (.ofCollection .changeLog a c)).filterMap (entryOf since)

theorem run_changesPage (digest : Digest) (hc : c ≠ .emailVanished) (since : ℕ) {bound : Option ℕ}
    (hbound : bound ≠ some 0) (w : World) :
    (changesPage a c since bound).run (machine digest) w =
      (.ok (pageOf bound (changesOf w.records a c since)), w) := by
  unfold changesPage
  rw [if_neg hbound, run_exec_bind]
  simp only [machine, readPage_eq since (change_of_mem_iterate hc) [] fun m _ => Nat.zero_le m]
  rfl

theorem run_changesSince (digest : Digest) (hc : c ≠ .emailVanished) (since : ℕ)
    (w : World) :
    (changesSince a c since).run (machine digest) w = (.ok (changesOf w.records a c since), w) := by
  rw [changesSince, run_bind, run_changesPage digest hc since (by simp)]
  simp [pageOf]

theorem mem_changesOf {s : Records} {since : ℕ} {e : ChangeLogEntry} :
    e ∈ changesOf s a c since ↔
      since < e.changeId ∧ s.lookup (.change a c e.changeId) = some ⟨e.documentId, e.kind⟩ := by
  constructor
  · intro h
    obtain ⟨⟨l, v⟩, hrow, he⟩ := mem_filterMap.1 h
    rcases loc_of_mem_iterate hrow with ⟨n, rfl⟩ | ⟨-, n, rfl⟩
    · by_cases hn : n ≤ since
      · simp [entryOf, hn] at he
      · simp only [entryOf, if_neg hn, Option.some.injEq] at he
        subst he
        exact ⟨not_le.1 hn, (Records.mem_iterate.1 hrow).2⟩
    · simp [entryOf] at he
  · rintro ⟨hsince, hlookup⟩
    refine mem_filterMap.2 ⟨⟨.change a c e.changeId, ⟨e.documentId, e.kind⟩⟩, ?_, ?_⟩
    · exact Records.mem_iterate.2 ⟨⟨[0, e.changeId], rfl⟩, hlookup⟩
    · simp [entryOf, not_le.2 hsince]

theorem sorted_changesOf (s : Records) (a : ℕ) (c : Collection) (since : ℕ) :
    (changesOf s a c since).Pairwise fun e e' => e.changeId < e'.changeId := by
  have hkeys := Table.pairwise_scan Loc.encode (KeyPrefix.ofCollection .changeLog a c).encode s
  have hnodup := Table.nodup_scan Loc.encode (KeyPrefix.ofCollection .changeLog a c).encode s
  refine pairwise_filterMap.2 ?_
  refine List.Pairwise.imp_of_mem ?_ (hkeys.and hnodup)
  rintro ⟨l, v⟩ ⟨l', v'⟩ hrow hrow' ⟨hle, hne⟩ e he e' he'
  rcases loc_of_mem_iterate hrow with ⟨n, rfl⟩ | ⟨-, n, rfl⟩
  · rcases loc_of_mem_iterate hrow' with ⟨n', rfl⟩ | ⟨-, n', rfl⟩
    · simp only [entryOf, Option.ite_none_left_eq_some, Option.some.injEq] at he he'
      have hnn : n ≤ n' := by
        simpa [Loc.encode, Key.encode, cons_lt_cons_iff,
          le_iff_lt_or_eq] using hle
      have hneq : n ≠ n' := by
        rintro rfl
        have hv := (Records.mem_iterate.1 hrow).2.symm.trans (Records.mem_iterate.1 hrow').2
        exact hne (by rw [Option.some.inj hv])
      rw [← he.2, ← he'.2]
      exact lt_of_le_of_ne hnn hneq
    · simp [entryOf] at he'
  · simp [entryOf] at he

end Rows

/-! ## What pruning loses -/

def floorOf (s : Records) (a : ℕ) (c : Collection) : ℕ := (s.lookup (.floor a c)).getD 0

/-- Between the states, entries of one partition may be lost, up to its floor. -/
structure Pruned (a : ℕ) (c : Collection) (s t : Records) : Prop where
  other : ∀ l, l ≠ .floor a c → (∀ n, l ≠ .change a c n) → (∀ n, l ≠ .vanished a n) →
    t.lookup l = s.lookup l
  change : ∀ n, t.lookup (.change a c n) = s.lookup (.change a c n) ∨
    t.lookup (.change a c n) = none ∧ n ≤ floorOf t a c
  floor_le : floorOf s a c ≤ floorOf t a c

theorem Pruned.refl (a : ℕ) (c : Collection) (s : Records) : Pruned a c s s :=
  ⟨fun _ _ _ _ => rfl, fun _ => .inl rfl, le_rfl⟩

theorem of_mem_pruneOps {cutoff : ℕ} {rows : List (Sigma Val)} {op : WriteOp}
    (h : op ∈ pruneOps cutoff rows) :
    ∃ row ∈ rows, ∃ n value, logRow row = some (n, value) ∧ n ≤ cutoff ∧ op = .delete row.1 := by
  induction rows with
  | nil => simp [pruneOps] at h
  | cons row rows ih =>
    have hlater : op ∈ pruneOps cutoff rows → ∃ row' ∈ row :: rows, ∃ n value,
        logRow row' = some (n, value) ∧ n ≤ cutoff ∧ op = .delete row'.1 := by
      intro hop
      obtain ⟨row', hrow', hspec⟩ := ih hop
      exact ⟨row', mem_cons_of_mem _ hrow', hspec⟩
    unfold pruneOps at h
    split at h
    next hnone => exact hlater h
    next n value hsome =>
      split at h
      next hn =>
        rcases mem_cons.1 h with rfl | h
        · exact ⟨row, mem_cons_self, n, value, hsome, hn, rfl⟩
        · exact hlater h
      next => simp at h

theorem effects_of_deletes {l : Loc} {ops : List WriteOp} (h : ∀ op ∈ ops, ∃ k, op = .delete k)
    (x : Option (Val l)) :
    WriteOp.effects l ops x = x ∨
      WriteOp.effects l ops x = none ∧ ∃ op ∈ ops, op = .delete l := by
  induction ops generalizing x with
  | nil => exact .inl rfl
  | cons op ops ih =>
    have hops := fun y => ih (fun o ho => h o (mem_cons_of_mem _ ho)) y
    obtain ⟨k, rfl⟩ := h op mem_cons_self
    rw [WriteOp.effects_cons]
    by_cases hk : k = l
    · subst hk
      rw [WriteOp.effect_delete_self]
      refine .inr ⟨?_, _, mem_cons_self, rfl⟩
      rcases hops none with hnone | ⟨hnone, -⟩ <;> exact hnone
    · have hne : (WriteOp.delete k).loc ≠ l := hk
      rw [WriteOp.effect_of_ne hne]
      rcases hops x with hsame | ⟨hnone, op, hop, heq⟩
      · exact .inl hsame
      · exact .inr ⟨hnone, op, mem_cons_of_mem _ hop, heq⟩

theorem pruned_batch {a : ℕ} {c : Collection} {cutoff : ℕ} (s : Records) :
    Pruned a c s (s.batch (pruneOps cutoff (s.iterate (.ofCollection .changeLog a c)) ++
      [.set (.floor a c) (max (floorOf s a c) cutoff)])) := by
  have hdeletes : ∀ op ∈ pruneOps cutoff (s.iterate (.ofCollection .changeLog a c)),
      ∃ k, op = .delete k := by
    intro op hop
    obtain ⟨row, -, n, value, -, -, rfl⟩ := of_mem_pruneOps hop
    exact ⟨row.1, rfl⟩
  have hloc : ∀ op ∈ pruneOps cutoff (s.iterate (.ofCollection .changeLog a c)),
      (∃ n ≤ cutoff, op.loc = .change a c n) ∨ ∃ n, op.loc = .vanished a n := by
    intro op hop
    obtain ⟨⟨l, v⟩, hrow, n, value, hvalue, hn, rfl⟩ := of_mem_pruneOps hop
    rcases loc_of_mem_iterate hrow with ⟨n', rfl⟩ | ⟨-, n', rfl⟩
    · obtain ⟨rfl, -⟩ : n' = n ∧ _ := by simpa [logRow] using hvalue
      exact .inl ⟨n', hn, rfl⟩
    · exact .inr ⟨n', rfl⟩
  have hfloor : floorOf (s.batch (pruneOps cutoff (s.iterate (.ofCollection .changeLog a c)) ++
      [.set (.floor a c) (max (floorOf s a c) cutoff)])) a c = max (floorOf s a c) cutoff := by
    rw [floorOf, Records.lookup_batch, WriteOp.effects_set_last (by simp)]
    rfl
  refine ⟨fun l hl hchange hvanished => ?_, fun n => ?_, ?_⟩
  · rw [Records.lookup_batch, WriteOp.effects_of_ne]
    intro op hop heq
    rcases mem_append.1 hop with hop | hop
    · rcases hloc op hop with ⟨n, -, hn⟩ | ⟨n, hn⟩
      · exact hchange n (heq.symm.trans hn)
      · exact hvanished n (heq.symm.trans hn)
    · rw [mem_singleton.1 hop] at heq
      exact hl heq.symm
  · have hne : (WriteOp.set (.floor a c) (max (floorOf s a c) cutoff)).loc ≠ .change a c n := by
      simp
    rw [hfloor, Records.lookup_batch, WriteOp.effects_append]
    rcases effects_of_deletes hdeletes (s.lookup (.change a c n)) with hsame | ⟨hnone, op, hop, rfl⟩
    · exact .inl hsame
    · refine .inr ⟨hnone, ?_⟩
      rcases hloc _ hop with ⟨m, hm, heq⟩ | ⟨m, heq⟩
      · obtain ⟨-, -, rfl⟩ := Loc.change.inj heq
        exact hm.trans (le_max_right _ _)
      · cases heq
  · rw [hfloor]
    exact le_max_left _ _

theorem pruned_prune (digest : Digest) (a : ℕ) (c : Collection) (keepLast : ℕ)
    (w : World) :
    Pruned a c w.records ((prune a c keepLast).run (machine digest) w).2.records := by
  unfold prune latestChangeId floor
  simp only [bind_assoc, pure_bind]
  rw [run_exec_bind]
  split
  · exact .refl a c _
  · rw [run_exec_bind]
    split
    · exact .refl a c _
    · exact pruned_batch w.records

end ChangeLog
end IrixMail.Store
