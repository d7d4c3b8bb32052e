import IrixMail.Library.Feed
import IrixMail.Mail.AccountingRuns
import Mathlib.Data.Finmap

/-!
# The message cache

`MessageStoreCache` keeps an entry for every message of an account. `build` scans
the data records; `refresh` replays the change log from the cache's cursor and
reads again what it names, or builds anew when the log no longer reaches back.
-/

namespace IrixMail.Mail
open Library Prog Store

structure MessageCacheEntry where
  documentId : ℕ
  mailboxes : List MailboxUid
  keywords : List Keyword
  threadId : ℕ
  size : ℕ
  receivedAt : ℕ
  sentAt : ℕ
  deriving DecidableEq

def MessageCacheEntry.fromData (documentId : ℕ) (data : MessageData) : MessageCacheEntry where
  documentId := documentId
  mailboxes := data.mailboxes
  keywords := data.keywords
  threadId := data.threadId
  size := data.size
  receivedAt := data.receivedAt
  sentAt := data.sentAt

abbrev CacheEntries := Finmap fun _ : ℕ => MessageCacheEntry

structure MessageStoreCache where
  accountId : ℕ
  entries : CacheEntries
  lastChangeId : ℕ

namespace MessageStoreCache

def len (cache : MessageStoreCache) : ℕ := cache.entries.keys.card

/-- Only the data records of a scan are cached; the metadata records beside them
have a longer key. -/
def gather : List (Sigma Val) → CacheEntries → CacheEntries
  | [], entries => entries
  | ⟨.data _ d, data⟩ :: rows, entries => gather rows (entries.insert d (.fromData d data))
  | _ :: rows, entries => gather rows entries

def build (a : ℕ) : Action MessageStoreCache := do
  let lastChangeId ← ChangeLog.latestChangeId a .email
  let rows ← exec (.iterate (.ofCollection .property a .email))
  pure ⟨a, gather rows ∅, lastChangeId⟩

def loadEntry (a d : ℕ) : Action (Option MessageCacheEntry) := do
  let data ← exec (.get (.data a d))
  pure (data.map (.fromData d))

def replayEntry (a : ℕ) (entries : CacheEntries) (change : ChangeLogEntry) :
    Action CacheEntries :=
  match change.kind with
  | .delete => pure (entries.erase change.documentId)
  | _ => do
    match ← loadEntry a change.documentId with
    | some cached => pure (entries.insert change.documentId cached)
    | none => pure (entries.erase change.documentId)

def replayChanges : List ChangeLogEntry → MessageStoreCache → Action MessageStoreCache
  | [], cache => pure cache
  | change :: changes, cache => do
    let entries ← replayEntry cache.accountId cache.entries change
    replayChanges changes
      { cache with entries := entries, lastChangeId := max cache.lastChangeId change.changeId }

def refresh (cache : MessageStoreCache) : Action (MessageStoreCache × ℕ) := do
  let reachable ← ChangeLog.canCalculate cache.accountId .email cache.lastChangeId
  if !reachable then do
    let rebuilt ← build cache.accountId
    pure (rebuilt, rebuilt.len)
  else do
    let changes ← ChangeLog.changesSince cache.accountId .email cache.lastChangeId
    let refreshed ← replayChanges changes cache
    pure (refreshed, changes.length)

end MessageStoreCache

/-! ## The feed of an account -/

def currentEntry (s : Records) (a d : ℕ) : Option MessageCacheEntry :=
  (s.lookup (.data a d)).map (.fromData d)

def messageFeed (s : Records) (a : ℕ) : Feed ℕ MessageCacheEntry where
  current := currentEntry s a
  entry n := (s.lookup (.change a .email n)).map fun v => (v.documentId, decide (v.kind = .delete))
  top := (max (emailCounter s a) 0).toNat
  floor := ChangeLog.floorOf s a .email

namespace MessageStoreCache
variable (digest : Digest)

theorem lookup_gather (rows : List (Sigma Val)) (entries : CacheEntries) (d : ℕ) :
    (∃ a data, (⟨.data a d, data⟩ : Sigma Val) ∈ rows ∧
      (gather rows entries).lookup d = some (.fromData d data)) ∨
    (∀ a data, (⟨.data a d, data⟩ : Sigma Val) ∉ rows) ∧
      (gather rows entries).lookup d = entries.lookup d := by
  fun_induction gather rows entries with
  | case1 entries => exact .inr ⟨by simp, rfl⟩
  | case2 b e data rows entries ih =>
    rcases ih with ⟨a, data', hmem, hlookup⟩ | ⟨hnone, hlookup⟩
    · exact .inl ⟨a, data', List.mem_cons_of_mem _ hmem, hlookup⟩
    · by_cases he : d = e
      · subst he
        refine .inl ⟨b, data, List.mem_cons_self, ?_⟩
        rw [hlookup, Finmap.lookup_insert]
      · refine .inr ⟨fun a data' hmem => ?_, ?_⟩
        · rcases List.mem_cons.1 hmem with heq | hmem
          · exact he (Loc.data.inj (Sigma.mk.inj heq).1).2
          · exact hnone a data' hmem
        · rw [hlookup, Finmap.lookup_insert_of_ne _ he]
  | case3 row rows entries hrow ih =>
    rcases ih with ⟨a, data', hmem, hlookup⟩ | ⟨hnone, hlookup⟩
    · exact .inl ⟨a, data', List.mem_cons_of_mem _ hmem, hlookup⟩
    · refine .inr ⟨fun a data' hmem => ?_, hlookup⟩
      rcases List.mem_cons.1 hmem with heq | hmem
      · exact hrow a d data' heq.symm
      · exact hnone a data' hmem

theorem lookup_gather_iterate (s : Records) (a d : ℕ) :
    (gather (s.iterate (.ofCollection .property a .email)) ∅).lookup d = currentEntry s a d := by
  rcases lookup_gather (s.iterate (.ofCollection .property a .email)) ∅ d with
    ⟨b, data, hmem, hlookup⟩ | ⟨hnone, hlookup⟩
  · obtain ⟨hkey, hdata⟩ := Records.mem_iterate.1 hmem
    obtain rfl : a = b := by
      simpa [KeyPrefix.ofCollection, KeyPrefix.encode, Loc.encode, Key.encode] using hkey
    rw [hlookup, currentEntry, hdata]
    rfl
  · rw [hlookup, currentEntry]
    cases hdata : s.lookup (.data a d) with
    | none => rfl
    | some data => exact (hnone a data (Records.mem_iterate.2 ⟨⟨[d], rfl⟩, hdata⟩)).elim

def builtFrom (s : Records) (a : ℕ) : MessageStoreCache :=
  ⟨a, gather (s.iterate (.ofCollection .property a .email)) ∅, (messageFeed s a).top⟩

theorem run_build (a : ℕ) (w : World) :
    (build a).run (machine digest) w = (.ok (builtFrom w.records a), w) := rfl

theorem lookup_builtFrom (s : Records) (a : ℕ) :
    (builtFrom s a).entries.lookup = (messageFeed s a).current :=
  funext fun d => lookup_gather_iterate s a d

def rowOf (e : ChangeLogEntry) : Feed.Row ℕ := ⟨e.changeId, e.documentId, decide (e.kind = .delete)⟩

theorem run_replayEntry (a : ℕ) (entries : CacheEntries) (change : ChangeLogEntry) (w : World) :
    ∃ entries', (replayEntry a entries change).run (machine digest) w = (.ok entries', w) ∧
      entries'.lookup = (messageFeed w.records a).replayRow entries.lookup (rowOf change) := by
  have herase : (entries.erase change.documentId).lookup =
      Function.update entries.lookup change.documentId none := by
    funext d
    by_cases hd : d = change.documentId
    · rw [hd, Finmap.lookup_erase, Function.update_self]
    · rw [Finmap.lookup_erase_ne hd, Function.update_of_ne hd]
  have hload : ∃ entries', (do
        match ← loadEntry a change.documentId with
        | some cached => pure (entries.insert change.documentId cached)
        | none => pure (entries.erase change.documentId) : Action CacheEntries).run
          (machine digest) w = (.ok entries', w) ∧
      entries'.lookup = Function.update entries.lookup change.documentId
        ((messageFeed w.records a).current change.documentId) := by
    unfold loadEntry
    simp only [bind_assoc]
    rw [run_exec_bind]
    simp only [machine, messageFeed, currentEntry]
    cases w.records.lookup (.data a change.documentId) with
    | none => exact ⟨_, rfl, herase⟩
    | some data =>
      refine ⟨_, rfl, funext fun d => ?_⟩
      by_cases hd : d = change.documentId
      · rw [hd, Finmap.lookup_insert, Function.update_self]
        rfl
      · rw [Finmap.lookup_insert_of_ne _ hd, Function.update_of_ne hd]
  unfold replayEntry
  cases hkind : change.kind with
  | delete => exact ⟨_, rfl, by simp [Feed.replayRow, rowOf, hkind, herase]⟩
  | insert => simpa [Feed.replayRow, rowOf, hkind] using hload
  | update => simpa [Feed.replayRow, rowOf, hkind] using hload

theorem run_replayChanges (changes : List ChangeLogEntry) (cache : MessageStoreCache) (w : World) :
    ∃ refreshed, (replayChanges changes cache).run (machine digest) w = (.ok refreshed, w) ∧
      refreshed.accountId = cache.accountId ∧
      refreshed.entries.lookup = (messageFeed w.records cache.accountId).replay
        cache.entries.lookup (changes.map rowOf) ∧
      (refreshed.lastChangeId = cache.lastChangeId ∨
        ∃ change ∈ changes, refreshed.lastChangeId = change.changeId) := by
  induction changes generalizing cache with
  | nil => exact ⟨cache, rfl, rfl, rfl, .inl rfl⟩
  | cons change changes ih =>
    obtain ⟨entries, hrun, hentries⟩ :=
      run_replayEntry digest cache.accountId cache.entries change w
    obtain ⟨refreshed, hrest, haccount, hlookup, hcursor⟩ := ih { cache with
      entries := entries, lastChangeId := max cache.lastChangeId change.changeId }
    refine ⟨refreshed, ?_, haccount, ?_, ?_⟩
    · simp only [replayChanges, run_bind, hrun]
      exact hrest
    · rw [hlookup, hentries]
      rfl
    · rcases hcursor with hcursor | ⟨later, hlater, hcursor⟩
      · rcases max_choice cache.lastChangeId change.changeId with hmax | hmax
        · exact .inl (hcursor.trans hmax)
        · exact .inr ⟨change, List.mem_cons_self, hcursor.trans hmax⟩
      · exact .inr ⟨later, List.mem_cons_of_mem _ hlater, hcursor⟩

end MessageStoreCache
end IrixMail.Mail
