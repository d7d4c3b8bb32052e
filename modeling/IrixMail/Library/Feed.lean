import Mathlib.Data.List.Sort

/-!
# Change feeds

A table whose changes are announced in a numbered log. A reader keeps a view of
the table and a cursor into the log; it catches up by reading again every key
that the log names after the cursor. The log may lose old entries; `floor` says
up to where. `Follows` is the relation between feed and reader that every change
of the table and every loss keep, and from which catching up restores the table.
-/

namespace Library
variable {κ ν : Type}

structure Feed (κ ν : Type) where
  current : κ → Option ν
  /-- Entry `n` names the key that changed and says whether it was removed. -/
  entry : ℕ → Option (κ × Bool)
  top : ℕ
  floor : ℕ

namespace Feed

def Names (f : Feed κ ν) (n : ℕ) (k : κ) : Prop := ∃ i > n, ∃ removed, f.entry i = some (k, removed)

def LastRemoved (f : Feed κ ν) (n : ℕ) (k : κ) : Prop :=
  f.entry n = some (k, true) ∧ ¬ f.Names n k

structure Sound (f : Feed κ ν) : Prop where
  bounded : ∀ n e, f.entry n = some e → n ≤ f.top
  removed : ∀ n k, f.floor < n → f.LastRemoved n k → f.current k = none

/-- From `f` to `g` keys have changed, all of them announced above the old top. -/
structure Advances (f g : Feed κ ν) : Prop where
  top_le : f.top ≤ g.top
  floor_eq : g.floor = f.floor
  old : ∀ n ≤ f.top, g.entry n = f.entry n
  bounded : ∀ n > f.top, ∀ e, g.entry n = some e → n ≤ g.top
  named : ∀ k, g.current k = f.current k ∨ g.Names f.top k
  removed : ∀ n > f.top, ∀ k, g.LastRemoved n k → g.current k = none

/-- From `f` to `g` entries have been lost, all of them at or below the new floor. -/
structure Prunes (f g : Feed κ ν) : Prop where
  current_eq : g.current = f.current
  top_eq : g.top = f.top
  floor_le : f.floor ≤ g.floor
  kept : ∀ n > g.floor, g.entry n = f.entry n
  lost : ∀ n e, g.entry n = some e → f.entry n = some e

structure Follows (f : Feed κ ν) (view : κ → Option ν) (cursor : ℕ) : Prop where
  cursor_le : cursor ≤ f.top
  seen : f.floor ≤ cursor → ∀ k, view k = f.current k ∨ f.Names cursor k

variable {f g : Feed κ ν} {view : κ → Option ν} {cursor : ℕ}

theorem Names.mono {m n : ℕ} {k : κ} (h : f.Names n k) (hmn : m ≤ n) : f.Names m k := by
  obtain ⟨i, hi, removed, he⟩ := h
  exact ⟨i, lt_of_le_of_lt hmn hi, removed, he⟩

theorem Advances.names (h : f.Advances g) {n : ℕ} {k : κ} (hf : f.Sound) (hk : f.Names n k) :
    g.Names n k := by
  obtain ⟨i, hi, removed, he⟩ := hk
  exact ⟨i, hi, removed, (h.old i (hf.bounded i _ he)).trans he⟩

theorem Sound.advance (hf : f.Sound) (h : f.Advances g) : g.Sound := by
  constructor
  · intro n e he
    by_cases hn : n ≤ f.top
    · exact hn.trans h.top_le
    · exact h.bounded n (not_le.1 hn) e he
  · intro n k hfloor hlast
    by_cases hn : n ≤ f.top
    · have hold : f.LastRemoved n k :=
        ⟨(h.old n hn).symm.trans hlast.1, fun hk => hlast.2 (h.names hf hk)⟩
      have hnone : f.current k = none := hf.removed n k (h.floor_eq ▸ hfloor) hold
      rcases h.named k with hsame | hnamed
      · exact hsame.trans hnone
      · exact (hlast.2 (hnamed.mono hn)).elim
    · exact h.removed n (not_le.1 hn) k hlast

theorem Sound.prune (hf : f.Sound) (h : f.Prunes g) : g.Sound := by
  constructor
  · intro n e he
    exact (hf.bounded n e (h.lost n e he)).trans_eq h.top_eq.symm
  · intro n k hfloor hlast
    rw [h.current_eq]
    refine hf.removed n k (h.floor_le.trans_lt hfloor) ⟨h.lost n _ hlast.1, ?_⟩
    rintro ⟨i, hi, removed, he⟩
    exact hlast.2 ⟨i, hi, removed, (h.kept i (hfloor.trans hi)).trans he⟩

theorem Follows.advance (hview : f.Follows view cursor) (hf : f.Sound) (h : f.Advances g) :
    g.Follows view cursor := by
  refine ⟨hview.cursor_le.trans h.top_le, fun hfloor k => ?_⟩
  rcases h.named k with hsame | hnamed
  · rcases hview.seen (h.floor_eq ▸ hfloor) k with hseen | hk
    · exact .inl (hseen.trans hsame.symm)
    · exact .inr (h.names hf hk)
  · exact .inr (hnamed.mono hview.cursor_le)

theorem Follows.prune (hview : f.Follows view cursor) (h : f.Prunes g) :
    g.Follows view cursor := by
  refine ⟨hview.cursor_le.trans_eq h.top_eq.symm, fun hfloor k => ?_⟩
  rw [h.current_eq]
  rcases hview.seen (h.floor_le.trans hfloor) k with hseen | ⟨i, hi, removed, he⟩
  · exact .inl hseen
  · exact .inr ⟨i, hi, removed, (h.kept i (hfloor.trans_lt hi)).trans he⟩

/-! ## Catching up -/

structure Row (κ : Type) where
  number : ℕ
  key : κ
  removed : Bool

structure Lists (f : Feed κ ν) (n : ℕ) (rows : List (Row κ)) : Prop where
  mem : ∀ r, r ∈ rows ↔ n < r.number ∧ f.entry r.number = some (r.key, r.removed)
  sorted : rows.Pairwise fun r r' => r.number < r'.number

theorem Lists.lastRemoved {n : ℕ} {rows pre post : List (Row κ)} {r : Row κ} (h : f.Lists n rows)
    (hsplit : rows = pre ++ r :: post) (hremoved : r.removed = true)
    (hlast : ∀ r' ∈ post, r'.key ≠ r.key) : f.LastRemoved r.number r.key := by
  have hr : n < r.number ∧ f.entry r.number = some (r.key, r.removed) :=
    (h.mem r).1 (by simp [hsplit])
  refine ⟨hremoved ▸ hr.2, ?_⟩
  rintro ⟨i, hi, removed, he⟩
  have hmem : (⟨i, r.key, removed⟩ : Row κ) ∈ rows := (h.mem _).2 ⟨hr.1.trans hi, he⟩
  have hsorted := h.sorted
  rw [hsplit] at hmem hsorted
  obtain ⟨-, hpost, hbefore⟩ := List.pairwise_append.1 hsorted
  rcases List.mem_append.1 hmem with hpre | hmem
  · exact absurd (hbefore _ hpre r List.mem_cons_self) (by simpa using hi.le)
  · rcases List.mem_cons.1 hmem with heq | hpost
    · exact absurd hi (by rw [← heq]; exact lt_irrefl _)
    · exact hlast _ hpost rfl

section Replay
variable [DecidableEq κ]

/-- One row: a removed key goes, any other is read again. -/
def replayRow (f : Feed κ ν) (view : κ → Option ν) (r : Row κ) : κ → Option ν :=
  Function.update view r.key (if r.removed then none else f.current r.key)

def replay (f : Feed κ ν) (view : κ → Option ν) (rows : List (Row κ)) : κ → Option ν :=
  rows.foldl f.replayRow view

/-- A key that the rows name ends up as it is in the table, if the last row that
names it tells a removal only of what is gone. -/
theorem replay_eq (rows : List (Row κ)) (k : κ)
    (h : ∀ pre r post, rows = pre ++ r :: post → r.removed = true →
      (∀ r' ∈ post, r'.key ≠ r.key) → f.current r.key = none) :
    f.replay view rows k = if ∃ r ∈ rows, r.key = k then f.current k else view k := by
  induction rows generalizing view with
  | nil => simp [replay]
  | cons r rows ih =>
    have htail : f.replay view (r :: rows) k =
        if ∃ r' ∈ rows, r'.key = k then f.current k else f.replayRow view r k :=
      ih fun pre r' post hsplit => h (r :: pre) r' post (by rw [hsplit]; rfl)
    rw [htail]
    by_cases hlater : ∃ r' ∈ rows, r'.key = k
    · obtain ⟨r', hr', hk⟩ := hlater
      rw [if_pos ⟨r', hr', hk⟩, if_pos ⟨r', List.mem_cons_of_mem _ hr', hk⟩]
    · rw [if_neg hlater]
      by_cases hk : r.key = k
      · subst hk
        rw [if_pos ⟨r, List.mem_cons_self, rfl⟩, replayRow, Function.update_self]
        split
        · refine (h [] r rows rfl ‹_› fun r' hr' heq => hlater ⟨r', hr', heq⟩).symm
        · rfl
      · rw [replayRow, Function.update_of_ne (Ne.symm hk), if_neg]
        rintro ⟨r', hr', heq⟩
        rcases List.mem_cons.1 hr' with rfl | hr'
        · exact hk heq
        · exact hlater ⟨r', hr', heq⟩

/-- A reader whose cursor is not below the floor catches up. -/
theorem Follows.replay_eq (hview : f.Follows view cursor) (hf : f.Sound)
    (hfloor : f.floor ≤ cursor) {rows : List (Row κ)} (hrows : f.Lists cursor rows) :
    f.replay view rows = f.current := by
  funext k
  rw [Feed.replay_eq rows k fun pre r post hsplit hremoved hlast => ?_]
  · split
    · rfl
    · rename_i hnone
      rcases hview.seen hfloor k with hseen | ⟨i, hi, removed, he⟩
      · exact hseen
      · exact absurd ⟨⟨i, k, removed⟩, (hrows.mem _).2 ⟨hi, he⟩, rfl⟩ hnone
  · have hr := (hrows.mem r).1 (by simp [hsplit])
    exact hf.removed r.number r.key (hfloor.trans_lt hr.1)
      (hrows.lastRemoved hsplit hremoved hlast)

end Replay

theorem follows_of_eq (hview : view = f.current) (hcursor : cursor ≤ f.top) :
    f.Follows view cursor :=
  ⟨hcursor, fun _ k => .inl (congrFun hview k)⟩

end Feed
end Library
