import IrixMail.Mail.Cache

/-!
# Refreshed caches

In every run of mail operations and prunings, a cache that was built at some
point and refreshed at any later points follows the feed of its account. So a
refresh gives what a build would give.
-/

namespace IrixMail.Mail
open Library Prog Store List

section Feeds
variable {a : ℕ} {s t : Records}

theorem Drawn.top_lt {n : ℕ} (h : Drawn a n s t) : (messageFeed s a).top < n := by
  have habove := h.above
  have hpos := h.pos
  change (max (emailCounter s a) 0).toNat < n
  omega

theorem Drawn.le_top {n : ℕ} (h : Drawn a n s t) (hpos : 0 ≤ emailCounter s a) :
    n ≤ (messageFeed t a).top := by
  have hbelow := h.below hpos
  change n ≤ (max (emailCounter t a) 0).toNat
  omega

theorem Announces.advances (h : Announces a s t) (hpos : 0 ≤ emailCounter s a)
    (hs : (messageFeed s a).Sound) : (messageFeed s a).Advances (messageFeed t a) := by
  -- above the old top there are only new entries
  have hnew : ∀ n > (messageFeed s a).top, ∀ e, (messageFeed t a).entry n = some e →
      Drawn a n s t ∧ (e.2 = true → (messageFeed t a).current e.1 = none) := by
    intro n hn e he
    rcases h.change n with hsame | ⟨hdrawn, v, hv, hdelete⟩
    · have hold : (messageFeed s a).entry n = some e := by
        simpa only [messageFeed, hsame] using he
      exact absurd (hs.bounded n e hold) (not_le.2 hn)
    · simp only [messageFeed, hv, Option.map_some, Option.some.injEq] at he
      subst he
      refine ⟨hdrawn, fun hremoved => ?_⟩
      simp only [messageFeed, currentEntry, hdelete (of_decide_eq_true hremoved), Option.map_none]
  refine ⟨?_, ?_, fun n hn => ?_, fun n hn e he => ?_, fun d => ?_, fun n hn d hlast => ?_⟩
  · have hle := h.counter_le
    change (max (emailCounter s a) 0).toNat ≤ (max (emailCounter t a) 0).toNat
    omega
  · simp only [messageFeed, ChangeLog.floorOf, h.floor]
  · rcases h.change n with hsame | ⟨hdrawn, -⟩
    · simp only [messageFeed, hsame]
    · exact absurd hdrawn.top_lt (not_lt.2 hn)
  · exact (hnew n hn e he).1.le_top hpos
  · rcases h.data d with hsame | ⟨n, kind, hdrawn, hentry⟩
    · exact .inl (by simp only [messageFeed, currentEntry, hsame])
    · refine .inr ⟨n, hdrawn.top_lt, decide (kind = .delete), ?_⟩
      simp only [messageFeed, hentry, Option.map_some]
  · exact (hnew n hn _ hlast.1).2 rfl

theorem prunes_of_pruned {b : ℕ} {c : Collection} (h : ChangeLog.Pruned b c s t) (a : ℕ) :
    emailCounter t a = emailCounter s a ∧ (messageFeed s a).Prunes (messageFeed t a) := by
  have hcounter : emailCounter t a = emailCounter s a := by
    unfold emailCounter Records.counter
    rw [h.other _ (by simp) (by simp) (by simp)]
  have hdata : ∀ d, t.lookup (.data a d) = s.lookup (.data a d) :=
    fun d => h.other _ (by simp) (by simp) (by simp)
  have hcurrent : (messageFeed t a).current = (messageFeed s a).current := by
    funext d
    simp only [messageFeed, currentEntry, hdata d]
  have htop : (messageFeed t a).top = (messageFeed s a).top := by
    simp only [messageFeed, hcounter]
  refine ⟨hcounter, hcurrent, htop, ?_, fun n hn => ?_, fun n e he => ?_⟩
  · by_cases heq : Loc.floor a .email = .floor b c
    · obtain ⟨rfl, rfl⟩ := Loc.floor.inj heq
      exact h.floor_le
    · exact le_of_eq (by
        simp only [messageFeed, ChangeLog.floorOf, h.other _ heq (by simp) (by simp)])
  · by_cases hbc : b = a ∧ c = .email
    · obtain ⟨rfl, rfl⟩ := hbc
      rcases h.change n with hsame | ⟨-, hle⟩
      · simp only [messageFeed, hsame]
      · exact absurd hn (not_lt.2 hle)
    · have hsame : t.lookup (.change a .email n) = s.lookup (.change a .email n) :=
        h.other _ (by simp) (fun m heq => hbc (by cases heq; exact ⟨rfl, rfl⟩)) (by simp)
      simp only [messageFeed, hsame]
  · by_cases hbc : b = a ∧ c = .email
    · obtain ⟨rfl, rfl⟩ := hbc
      rcases h.change n with hsame | ⟨hnone, -⟩
      · simpa only [messageFeed, hsame] using he
      · simp [messageFeed, hnone] at he
    · have hsame : t.lookup (.change a .email n) = s.lookup (.change a .email n) :=
        h.other _ (by simp) (fun m heq => hbc (by cases heq; exact ⟨rfl, rfl⟩)) (by simp)
      simpa only [messageFeed, hsame] using he

theorem lists_changesOf (s : Records) (a since : ℕ) :
    (messageFeed s a).Lists since
      ((ChangeLog.changesOf s a .email since).map MessageStoreCache.rowOf) := by
  constructor
  · intro r
    constructor
    · intro hr
      obtain ⟨e, he, rfl⟩ := mem_map.1 hr
      obtain ⟨hsince, hentry⟩ := ChangeLog.mem_changesOf.1 he
      exact ⟨hsince, by simp only [messageFeed, MessageStoreCache.rowOf, hentry, Option.map_some]⟩
    · rintro ⟨hsince, hentry⟩
      obtain ⟨v, hv, hrow⟩ := Option.map_eq_some_iff.1 hentry
      refine mem_map.2 ⟨⟨r.number, v.documentId, v.kind⟩,
        ChangeLog.mem_changesOf.2 ⟨hsince, hv⟩, ?_⟩
      obtain ⟨hkey, hremoved⟩ := Prod.mk.inj hrow
      simp only [MessageStoreCache.rowOf, hkey, hremoved]
  · exact pairwise_map.2 (ChangeLog.sorted_changesOf s a .email since)

end Feeds

namespace MessageStoreCache
variable (digest : Digest) {cache : MessageStoreCache} {w : World}

theorem run_refresh_eq (cache : MessageStoreCache) (w : World) :
    cache.refresh.run (machine digest) w =
      if (messageFeed w.records cache.accountId).floor ≤ cache.lastChangeId then
        (do
          let refreshed ← replayChanges
            (ChangeLog.changesOf w.records cache.accountId .email cache.lastChangeId) cache
          pure (refreshed, (ChangeLog.changesOf w.records cache.accountId .email
            cache.lastChangeId).length) : Action _).run (machine digest) w
      else
        (.ok (builtFrom w.records cache.accountId, (builtFrom w.records cache.accountId).len), w) := by
  change (if (!decide ((messageFeed w.records cache.accountId).floor ≤ cache.lastChangeId)) = true
    then _ else _ : Action _).run (machine digest) w = _
  by_cases hfloor : (messageFeed w.records cache.accountId).floor ≤ cache.lastChangeId
  · rw [if_pos hfloor, decide_eq_true hfloor, if_neg (by simp), run_bind,
      ChangeLog.run_changesSince digest (by simp)]
  · rw [if_neg hfloor, decide_eq_false hfloor, if_pos (by simp), run_bind, run_build]
    rfl

theorem run_refresh (hs : (messageFeed w.records cache.accountId).Sound)
    (hview : (messageFeed w.records cache.accountId).Follows cache.entries.lookup
      cache.lastChangeId) :
    ∃ refreshed n, cache.refresh.run (machine digest) w = (.ok (refreshed, n), w) ∧
      refreshed.accountId = cache.accountId ∧
      refreshed.entries.lookup = (messageFeed w.records cache.accountId).current ∧
      refreshed.lastChangeId ≤ (messageFeed w.records cache.accountId).top := by
  rw [run_refresh_eq]
  by_cases hfloor : (messageFeed w.records cache.accountId).floor ≤ cache.lastChangeId
  · obtain ⟨refreshed, hrun, haccount, hlookup, hcursor⟩ := run_replayChanges digest
      (ChangeLog.changesOf w.records cache.accountId .email cache.lastChangeId) cache w
    rw [if_pos hfloor, run_bind, hrun]
    refine ⟨refreshed, _, rfl, haccount, ?_, ?_⟩
    · rw [hlookup]
      exact hview.replay_eq hs hfloor (lists_changesOf _ _ _)
    · rcases hcursor with hsame | ⟨change, hchange, hcursor⟩
      · exact hsame.trans_le hview.cursor_le
      · have hentry := ((lists_changesOf w.records cache.accountId cache.lastChangeId).mem _).1
          (mem_map_of_mem hchange)
        exact hcursor.trans_le (hs.bounded _ _ hentry.2)
  · rw [if_neg hfloor]
    exact ⟨_, _, rfl, rfl, lookup_builtFrom _ _, le_rfl⟩

end MessageStoreCache

/-! ## Runs with caches -/

inductive CacheOp
  | mail (op : MailOp)
  | prune (a : ℕ) (c : Collection) (keepLast : ℕ)
  | pruneChangeLogs (keepLast : ℕ)
  | build (a : ℕ)
  /-- The cache of that number is refreshed. -/
  | refresh (i : ℕ)

structure CacheState where
  world : World
  caches : List MessageStoreCache

namespace CacheState
variable (env : Env)

def step (st : CacheState) : CacheOp → CacheState
  | .mail op => ⟨op.perform env st.world, st.caches⟩
  | .prune a c keepLast =>
    ⟨((ChangeLog.prune a c keepLast).run (machine env.digest) st.world).2, st.caches⟩
  | .pruneChangeLogs keepLast =>
    ⟨((ChangeLog.pruneChangeLogs keepLast).run (machine env.digest) st.world).2, st.caches⟩
  | .build a =>
    match (MessageStoreCache.build a).run (machine env.digest) st.world with
    | (.ok cache, w) => ⟨w, st.caches ++ [cache]⟩
    | (.error _, w) => ⟨w, st.caches⟩
  | .refresh i =>
    match st.caches[i]? with
    | none => st
    | some cache =>
      match cache.refresh.run (machine env.digest) st.world with
      | (.ok (refreshed, _), w) => ⟨w, st.caches.set i refreshed⟩
      | (.error _, w) => ⟨w, st.caches⟩

def run (st : CacheState) (ops : List CacheOp) : CacheState := ops.foldl (step env) st

structure Sound (st : CacheState) : Prop where
  counters : ∀ a, 0 ≤ emailCounter st.world.records a
  feeds : ∀ a, (messageFeed st.world.records a).Sound
  follows : ∀ cache ∈ st.caches, (messageFeed st.world.records cache.accountId).Follows
    cache.entries.lookup cache.lastChangeId

variable {env} {st : CacheState}

theorem Sound.prune (h : st.Sound) {w : World} {b : ℕ} {c : Collection}
    (hpruned : ChangeLog.Pruned b c st.world.records w.records) : Sound ⟨w, st.caches⟩ := by
  constructor
  · intro a
    exact (h.counters a).trans_eq (prunes_of_pruned hpruned a).1.symm
  · intro a
    exact (h.feeds a).prune (prunes_of_pruned hpruned a).2
  · intro cache hcache
    exact (h.follows cache hcache).prune (prunes_of_pruned hpruned _).2

theorem Sound.pruneAll (h : st.Sound) (keepLast : ℕ) (ps : List (ℕ × Collection)) (n : ℕ) :
    Sound ⟨((ChangeLog.pruneAll keepLast ps n).run (machine env.digest) st.world).2,
      st.caches⟩ := by
  induction ps generalizing st n with
  | nil => exact h
  | cons p ps ih =>
    obtain ⟨b, c⟩ := p
    have hpruned := ChangeLog.pruned_prune env.digest b c keepLast st.world
    unfold ChangeLog.pruneAll
    rw [run_bind]
    cases hrun : (ChangeLog.prune b c keepLast).run (machine env.digest) st.world with
    | mk result w =>
      rw [hrun] at hpruned
      cases result with
      | ok pruned => exact ih (h.prune hpruned) (n + pruned)
      | error e => exact h.prune hpruned

theorem Sound.step (h : st.Sound) (op : CacheOp) : (st.step env op).Sound := by
  cases op with
  | mail op =>
    have hstep := op.step_perform env h.counters
    constructor
    · intro a
      exact (h.counters a).trans (hstep.announces a).counter_le
    · intro a
      exact (h.feeds a).advance ((hstep.announces a).advances (h.counters a) (h.feeds a))
    · intro cache hcache
      exact (h.follows cache hcache).advance (h.feeds _)
        ((hstep.announces _).advances (h.counters _) (h.feeds _))
  | prune a c keepLast => exact h.prune (ChangeLog.pruned_prune env.digest a c keepLast st.world)
  | pruneChangeLogs keepLast => exact h.pruneAll keepLast _ 0
  | build a =>
    refine ⟨h.counters, h.feeds, fun cache hcache => ?_⟩
    rcases mem_append.1 hcache with hold | hnew
    · exact h.follows cache hold
    · rw [mem_singleton.1 hnew]
      exact Feed.follows_of_eq (MessageStoreCache.lookup_builtFrom _ a) le_rfl
  | refresh i =>
    simp only [CacheState.step]
    cases hi : st.caches[i]? with
    | none => exact h
    | some cache =>
      have hcache : cache ∈ st.caches := mem_of_getElem? hi
      obtain ⟨refreshed, n, hrun, haccount, hentries, hcursor⟩ :=
        MessageStoreCache.run_refresh env.digest (h.feeds cache.accountId) (h.follows cache hcache)
      simp only [hrun]
      refine ⟨h.counters, h.feeds, fun other hother => ?_⟩
      rcases mem_or_eq_of_mem_set hother with hold | rfl
      · exact h.follows other hold
      · rw [haccount]
        exact Feed.follows_of_eq hentries hcursor

theorem Sound.run (h : st.Sound) (ops : List CacheOp) : (st.run env ops).Sound := by
  induction ops generalizing st with
  | nil => exact h
  | cons op ops ih => exact ih (h.step op)

theorem sound_empty (ids : IdGenerator) (clock : ℕ) : Sound ⟨.empty ids clock, []⟩ := by
  refine ⟨fun a => le_rfl, fun a => ⟨fun n e he => ?_, fun n d _ hlast => ?_⟩, by simp⟩
  · simp [messageFeed, World.empty] at he
  · rfl

variable (env)

/-- In every run, a refresh of any cache succeeds and gives the entries that a
build on the same store gives. -/
theorem refresh_eq_build (ids : IdGenerator) (clock : ℕ) (ops : List CacheOp) :
    let st := (⟨.empty ids clock, []⟩ : CacheState).run env ops
    ∀ cache ∈ st.caches, ∃ refreshed n built,
      cache.refresh.run (machine env.digest) st.world = (.ok (refreshed, n), st.world) ∧
      (MessageStoreCache.build cache.accountId).run (machine env.digest) st.world =
        (.ok built, st.world) ∧
      refreshed.entries = built.entries := by
  intro st cache hcache
  have hsound : st.Sound := (sound_empty ids clock).run ops
  obtain ⟨refreshed, n, hrun, -, hentries, -⟩ := MessageStoreCache.run_refresh env.digest
    (hsound.feeds cache.accountId) (hsound.follows cache hcache)
  refine ⟨refreshed, n, _, hrun, MessageStoreCache.run_build env.digest _ _, ?_⟩
  have hbuilt := MessageStoreCache.lookup_builtFrom st.world.records cache.accountId
  exact Finmap.ext_lookup fun d => congrFun (hentries.trans hbuilt.symm) d

end CacheState
end IrixMail.Mail
