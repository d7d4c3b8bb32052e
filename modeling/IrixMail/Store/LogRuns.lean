import IrixMail.Store.ChangeLog

/-!
# What a log remembers

A run on the log of one collection records changes, alone or in a batch with the
records they are about, and prunes; whatever else happens leaves the log alone.
What was recorded since a point of the run can be read back from there, unless the
log was pruned beyond it.
-/

namespace IrixMail.Store.ChangeLog
open Library Prog List

variable (digest : Digest) (a : ℕ) (c : Collection)

def commitChange (documentId : ℕ) (kind : ChangeKind) (ops : List WriteOp) : Action ℕ := do
  let (changeId, change) ← recordOp a c documentId kind
  exec (.batch (ops ++ [change]))
  pure changeId

/-- The place belongs to the log of the collection. -/
def OfLog (l : Loc) : Prop :=
  (∃ n, l = .change a c n) ∨ l = .floor a c ∨ l = .counter (counterLoc a c)

def counterOf (s : Records) : ℤ := s.counter (counterLoc a c)

/-- The log is left alone, but numbers may be drawn from its sequence. -/
structure Untouched (s t : Records) : Prop where
  change : ∀ n, t.lookup (.change a c n) = s.lookup (.change a c n)
  floor : floorOf t a c = floorOf s a c
  counter : counterOf a c s ≤ counterOf a c t

inductive LogRun : World → List ChangeLogEntry → World → Prop
  | refl (w : World) : LogRun w [] w
  | record {w w' w'' : World} {h : List ChangeLogEntry} {d n : ℕ} {kind : ChangeKind} :
      LogRun w h w' → (record a c d kind).run (machine digest) w' = (.ok n, w'') →
      LogRun w (h ++ [⟨n, d, kind⟩]) w''
  | commit {w w' w'' : World} {h : List ChangeLogEntry} {d n : ℕ} {kind : ChangeKind}
      {ops : List WriteOp} :
      LogRun w h w' → (∀ op ∈ ops, ¬ OfLog a c op.loc) →
      (commitChange a c d kind ops).run (machine digest) w' = (.ok n, w'') →
      LogRun w (h ++ [⟨n, d, kind⟩]) w''
  | prune {w w' : World} {h : List ChangeLogEntry} (keepLast : ℕ) :
      LogRun w h w' → LogRun w h ((prune a c keepLast).run (machine digest) w').2
  | pruneChangeLogs {w w' : World} {h : List ChangeLogEntry} (keepLast : ℕ) :
      LogRun w h w' → LogRun w h ((pruneChangeLogs keepLast).run (machine digest) w').2
  | other {w w' w'' : World} {h : List ChangeLogEntry} :
      LogRun w h w' → Untouched a c w'.records w''.records → LogRun w h w''

/-- The second state has what was recorded since the first, down to its floor. -/
structure Remembers (s : Records) (h : List ChangeLogEntry) (t : Records) : Prop where
  counter : counterOf a c s ≤ counterOf a c t
  sorted : h.Pairwise fun e e' => e.changeId < e'.changeId
  range : ∀ e ∈ h, counterOf a c s < e.changeId ∧ e.changeId ≤ counterOf a c t
  known : ∀ n v, t.lookup (.change a c n) = some v →
    s.lookup (.change a c n) = some v ∨ ⟨n, v.documentId, v.kind⟩ ∈ h
  kept : ∀ e ∈ h, floorOf t a c < e.changeId →
    t.lookup (.change a c e.changeId) = some ⟨e.documentId, e.kind⟩

variable {digest a c}

theorem Pruned.counterOf {s t : Records} (h : Pruned a c s t) :
    counterOf a c t = counterOf a c s := by
  unfold ChangeLog.counterOf Records.counter
  rw [h.other (.counter (counterLoc a c)) (by simp) (by simp) (by simp)]

namespace Remembers
variable {s t u : Records} {h : List ChangeLogEntry}

theorem refl (s : Records) : Remembers a c s [] s :=
  ⟨le_rfl, .nil, by simp, fun _ _ hv => .inl hv, by simp⟩

theorem untouched (hr : Remembers a c s h t) (htu : Untouched a c t u) : Remembers a c s h u where
  counter := hr.counter.trans htu.counter
  sorted := hr.sorted
  range e he := (hr.range e he).imp_right fun hle => hle.trans htu.counter
  known n v hv := hr.known n v (by rwa [← htu.change n])
  kept e he hfloor := by
    rw [htu.change]
    exact hr.kept e he (by rwa [← htu.floor])

theorem record (hr : Remembers a c s h t) {n d : ℕ} {kind : ChangeKind}
    (hn : (n : ℤ) = counterOf a c t + 1) (hcounter : counterOf a c u = n)
    (hnew : u.lookup (.change a c n) = some ⟨d, kind⟩)
    (hold : ∀ m, m ≠ n → u.lookup (.change a c m) = t.lookup (.change a c m))
    (hfloor : floorOf u a c = floorOf t a c) :
    Remembers a c s (h ++ [⟨n, d, kind⟩]) u where
  counter := hr.counter.trans (by omega)
  sorted := by
    refine pairwise_append.2 ⟨hr.sorted, pairwise_singleton _ _, fun e he e' he' => ?_⟩
    obtain rfl := mem_singleton.1 he'
    have hle := (hr.range e he).2
    dsimp only
    omega
  range e he := by
    rcases mem_append.1 he with he | he
    · have hrange := hr.range e he
      omega
    · obtain rfl := mem_singleton.1 he
      have hle := hr.counter
      dsimp only
      omega
  known m v hv := by
    by_cases hm : m = n
    · subst hm
      obtain rfl := Option.some.inj (hnew.symm.trans hv)
      exact .inr (by simp)
    · rw [hold m hm] at hv
      exact (hr.known m v hv).imp_right fun hmem => mem_append_left _ hmem
  kept e he hlow := by
    rcases mem_append.1 he with he | he
    · have hne : e.changeId ≠ n := by
        have hle := (hr.range e he).2
        omega
      rw [hold _ hne]
      exact hr.kept e he (by rwa [← hfloor])
    · obtain rfl := mem_singleton.1 he
      exact hnew

theorem pruned (hr : Remembers a c s h t) (hp : Pruned a c t u) : Remembers a c s h u where
  counter := by
    rw [hp.counterOf]
    exact hr.counter
  sorted := hr.sorted
  range e he := by
    rw [hp.counterOf]
    exact hr.range e he
  known n v hv := by
    rcases hp.change n with hsame | ⟨hnone, -⟩
    · exact hr.known n v (by rwa [← hsame])
    · rw [hnone] at hv
      cases hv
  kept e he hlow := by
    rcases hp.change e.changeId with hsame | ⟨-, hle⟩
    · rw [hsame]
      exact hr.kept e he (hp.floor_le.trans_lt hlow)
    · omega

end Remembers

/-! ## Runs -/

theorem Remembers.commit {w w' : World} {s : Records} {h : List ChangeLogEntry} {d n : ℕ}
    {kind : ChangeKind} {ops : List WriteOp} (hr : Remembers a c s h w.records)
    (h0 : 0 ≤ counterOf a c w.records) (hops : ∀ op ∈ ops, ¬ OfLog a c op.loc)
    (hrun : (commitChange a c d kind ops).run (machine digest) w = (.ok n, w')) :
    Remembers a c s (h ++ [⟨n, d, kind⟩]) w'.records := by
  let drawn : Records := (WriteOp.add (counterLoc a c) 1).apply w.records
  obtain ⟨k, hk⟩ : ∃ k : ℕ, (max (counterOf a c w.records + 1) 1).toNat = k := ⟨_, rfl⟩
  have hrun' : (commitChange a c d kind ops).run (machine digest) w =
      (.ok k, { w with records := drawn.batch (ops ++ [.set (.change a c k) ⟨d, kind⟩]) }) := by
    rw [← hk]
    rfl
  rw [hrun'] at hrun
  obtain ⟨hn, hw⟩ := Prod.mk.inj hrun
  obtain rfl := Except.ok.inj hn
  subst hw
  have hdrawn : ∀ l, l ≠ .counter (counterLoc a c) → drawn.lookup l = w.records.lookup l := by
    intro l hl
    rw [WriteOp.lookup_apply, WriteOp.effect_of_ne (Ne.symm hl)]
  have hcounter : counterOf a c drawn = counterOf a c w.records + 1 := by
    unfold counterOf
    rw [WriteOp.counter_apply (WriteOp.additive_add _ _), WriteOp.amountAt, if_pos rfl]
  -- The batch leaves all of the log alone but for the new entry.
  have hother : ∀ l, OfLog a c l → l ≠ .change a c k →
      (drawn.batch (ops ++ [.set (.change a c k) ⟨d, kind⟩])).lookup l = drawn.lookup l := by
    intro l hl hne
    rw [Records.lookup_batch, WriteOp.effects_of_ne]
    intro op hop heq
    rcases mem_append.1 hop with hop | hop
    · exact hops op hop (heq ▸ hl)
    · rw [mem_singleton.1 hop] at heq
      exact hne heq.symm
  refine hr.record (by omega) ?_ ?_ (fun m hm => ?_) ?_
  · have hsame : counterOf a c (drawn.batch (ops ++ [.set (.change a c k) ⟨d, kind⟩])) =
        counterOf a c drawn :=
      congrArg (Option.getD · 0) (hother (.counter (counterLoc a c)) (.inr (.inr rfl)) (by simp))
    dsimp only
    omega
  · rw [Records.lookup_batch, WriteOp.effects_set_last (by simp)]
  · rw [hother _ (.inl ⟨m, rfl⟩) (by simpa using hm), hdrawn _ (by simp)]
  · unfold floorOf
    rw [hother _ (.inr (.inl rfl)) (by simp), hdrawn _ (by simp)]

theorem Pruned.untouched {a' : ℕ} {c' : Collection} {s t : Records} (h : Pruned a' c' s t)
    (hne : (a', c') ≠ (a, c)) : Untouched a c s t where
  change n := h.other _ (by simp) (by rintro m ⟨⟩; exact hne rfl) (by simp)
  floor := by
    unfold floorOf
    rw [h.other _ (by rintro ⟨⟩; exact hne rfl) (by simp) (by simp)]
  counter := by
    unfold ChangeLog.counterOf Records.counter
    rw [h.other _ (by simp) (by simp) (by simp)]

theorem Remembers.prune {w : World} {s : Records} {h : List ChangeLogEntry}
    (hr : Remembers a c s h w.records) (digest : Digest) (a' : ℕ)
    (c' : Collection) (keepLast : ℕ) :
    Remembers a c s h ((prune a' c' keepLast).run (machine digest) w).2.records := by
  have hpruned := pruned_prune digest a' c' keepLast w
  by_cases hsame : (a', c') = (a, c)
  · obtain ⟨rfl, rfl⟩ := Prod.mk.inj hsame
    exact hr.pruned hpruned
  · exact hr.untouched (hpruned.untouched hsame)

theorem Remembers.pruneAll {s : Records} {h : List ChangeLogEntry} (keepLast : ℕ)
    (partitions : List (ℕ × Collection)) (pruned : ℕ) {w : World}
    (hr : Remembers a c s h w.records) :
    Remembers a c s h ((pruneAll keepLast partitions pruned).run (machine digest) w).2.records := by
  induction partitions generalizing pruned w with
  | nil => exact hr
  | cons p ps ih =>
    obtain ⟨a', c'⟩ := p
    have hfirst := hr.prune digest a' c' keepLast
    unfold ChangeLog.pruneAll
    rw [run_bind]
    split
    next n w' hrun =>
      rw [hrun] at hfirst
      exact ih _ hfirst
    next e w' hrun =>
      rw [hrun] at hfirst
      exact hfirst

theorem LogRun.remembers {w w' : World} {h : List ChangeLogEntry} (hrun : LogRun digest a c w h w')
    (h0 : 0 ≤ counterOf a c w.records) : Remembers a c w.records h w'.records := by
  induction hrun with
  | refl => exact .refl _
  | record _ hrecord ih =>
    change (commitChange _ _ _ _ []).run _ _ = _ at hrecord
    exact ih.commit (h0.trans ih.counter) (by simp) hrecord
  | commit _ hops hcommit ih => exact ih.commit (h0.trans ih.counter) hops hcommit
  | prune keepLast _ ih => exact ih.prune digest a c keepLast
  | pruneChangeLogs keepLast _ ih => exact ih.pruneAll keepLast _ 0
  | other _ huntouched ih => exact ih.untouched huntouched

/-- The log has no entries yet. -/
def Fresh (a : ℕ) (c : Collection) (w : World) : Prop :=
  0 ≤ counterOf a c w.records ∧ ∀ n, w.records.lookup (.change a c n) = none

/-- As long as the log was not pruned beyond a point of a run, what is read from there
is what was recorded since. -/
theorem changesOf_eq {w₀ w₁ w₂ : World} {h₁ h₂ : List ChangeLogEntry} (hfresh : Fresh a c w₀)
    (hrun₁ : LogRun digest a c w₀ h₁ w₁) (hrun₂ : LogRun digest a c w₁ h₂ w₂) {since : ℕ}
    (hsince : (since : ℤ) = counterOf a c w₁.records) (hfloor : floorOf w₂.records a c ≤ since) :
    changesOf w₂.records a c since = h₂ := by
  have hr₁ := hrun₁.remembers hfresh.1
  have hr₂ := hrun₂.remembers (hfresh.1.trans hr₁.counter)
  have hmem : ∀ e, e ∈ changesOf w₂.records a c since ↔ e ∈ h₂ := by
    intro e
    rw [mem_changesOf]
    constructor
    · rintro ⟨hlt, hlookup⟩
      refine (hr₂.known _ _ hlookup).resolve_left fun hold => ?_
      rcases hr₁.known _ _ hold with hnone | hmem
      · rw [hfresh.2] at hnone
        cases hnone
      · have hle := (hr₁.range _ hmem).2
        dsimp only at hle
        omega
    · intro he
      have hlt := (hr₂.range e he).1
      exact ⟨by omega, hr₂.kept e he (by omega)⟩
  have hnodup : ∀ {l : List ChangeLogEntry}, (l.Pairwise fun e e' => e.changeId < e'.changeId) →
      l.Nodup := fun hl => hl.imp fun hlt heq => absurd hlt (by rw [heq]; exact lt_irrefl _)
  have hsorted := sorted_changesOf w₂.records a c since
  exact List.Perm.eq_of_pairwise (fun _ _ _ _ hlt hlt' => absurd hlt (lt_asymm hlt')) hsorted
    hr₂.sorted ((perm_ext_iff_of_nodup (hnodup hsorted) (hnodup hr₂.sorted)).2 hmem)

end IrixMail.Store.ChangeLog
