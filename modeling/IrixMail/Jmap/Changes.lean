import IrixMail.Jmap.Reply
import IrixMail.Library.Replay
import IrixMail.Store.LogRuns

/-!
# Following a collection

A client holds the ids of a collection and the state they belong to. It asks for the
changes since then, page by page, and drops and adds what it is told, until there is
no more; then it holds the ids of the collection as it is.
-/

namespace IrixMail.Store.ChangeLog
open Library Prog

section Pages
variable {a : ℕ} {c : Collection}

theorem changesOf_later (s : Records) {since since' : ℕ} (h : since ≤ since') :
    changesOf s a c since' =
      (changesOf s a c since).filter fun e => decide (since' < e.changeId) := by
  unfold changesOf
  rw [List.filter_filterMap]
  refine List.filterMap_congr fun row _ => ?_
  obtain ⟨l, v⟩ := row
  cases l with
  | change a' c' n =>
    by_cases hn : n ≤ since
    · simp [entryOf, hn, hn.trans h]
    · by_cases hn' : n ≤ since'
      · simp [entryOf, hn, hn', Option.filter]
      · simp [entryOf, hn, hn', Option.filter]
  | _ => rfl

end Pages
end IrixMail.Store.ChangeLog

namespace IrixMail.Jmap
open Library Prog Store

/-! ## One page -/

def changeJournal : Journal ChangeLogEntry ℕ where
  key := ChangeLogEntry.documentId
  born entry := entry.kind = .insert
  dies entry := entry.kind = .delete
  apart entry h := by
    rw [decide_eq_true_eq] at h
    rw [h]
    rfl

section Page
variable {entries : List ChangeLogEntry} {d : ℕ}

theorem mem_changedDocuments : d ∈ changedDocuments entries ↔ changeJournal.Touched entries d := by
  unfold changedDocuments Journal.Touched
  rw [List.mem_insertionSort, List.mem_dedup, List.mem_map]
  rfl

theorem hasKind_iff {kind : ChangeKind} :
    hasKind entries kind d = true ↔ ∃ e ∈ entries, e.documentId = d ∧ e.kind = kind := by
  simp [hasKind]

theorem born_iff : changeJournal.Born entries d ↔ hasKind entries .insert d = true := by
  rw [hasKind_iff]
  simp [Journal.Born, changeJournal]

theorem dies_iff : changeJournal.Dies entries d ↔ hasKind entries .delete d = true := by
  rw [hasKind_iff]
  simp [Journal.Dies, changeJournal]

theorem touched_of_hasKind {kind : ChangeKind} (h : hasKind entries kind d = true) :
    changeJournal.Touched entries d := by
  obtain ⟨e, he, hd, -⟩ := hasKind_iff.1 h
  exact ⟨e, he, hd⟩

theorem mem_createdDocuments :
    d ∈ createdDocuments entries ↔ changeJournal.Born entries d ∧ ¬ changeJournal.Dies entries d := by
  unfold createdDocuments
  rw [List.mem_filter, mem_changedDocuments, born_iff, dies_iff, Bool.and_eq_true,
    Bool.not_eq_eq_eq_not, Bool.not_eq_true]
  exact ⟨And.right, fun h => ⟨touched_of_hasKind h.1, h⟩⟩

theorem mem_destroyedDocuments :
    d ∈ destroyedDocuments entries ↔ changeJournal.Dies entries d ∧ ¬ changeJournal.Born entries d := by
  unfold destroyedDocuments
  rw [List.mem_filter, mem_changedDocuments, born_iff, dies_iff, Bool.and_eq_true,
    Bool.not_eq_eq_eq_not, Bool.not_eq_true]
  exact ⟨fun h => ⟨h.2.2, h.2.1⟩, fun h => ⟨touched_of_hasKind h.1, h.2, h.1⟩⟩

theorem mem_created_or_updated (h : changeJournal.Touched entries d)
    (hdies : ¬ changeJournal.Dies entries d) : d ∈ createdDocuments entries ∨ d ∈ updatedDocuments entries := by
  by_cases hborn : changeJournal.Born entries d
  · exact .inl (mem_createdDocuments.2 ⟨hborn, hdies⟩)
  · refine .inr (List.mem_filter.2 ⟨mem_changedDocuments.2 h, ?_⟩)
    obtain ⟨e, he, hd⟩ := h
    have hkind : e.kind = .update := by
      cases hk : e.kind with
      | insert => exact absurd (born_iff.2 (hasKind_iff.2 ⟨e, he, hd, hk⟩)) hborn
      | delete => exact absurd (dies_iff.2 (hasKind_iff.2 ⟨e, he, hd, hk⟩)) hdies
      | update => rfl
    rw [born_iff, Bool.not_eq_true] at hborn
    rw [dies_iff, Bool.not_eq_true] at hdies
    rw [hborn, hdies, hasKind_iff.2 ⟨e, he, hd, hkind⟩]
    rfl

theorem le_stateAfter {since : ℕ} :
    since ≤ stateAfter entries since ∧ ∀ e ∈ entries, e.changeId ≤ stateAfter entries since := by
  induction entries generalizing since with
  | nil => simp [stateAfter]
  | cons e es ih =>
    obtain ⟨hle, hes⟩ := @ih (max since e.changeId)
    refine ⟨(le_max_left _ _).trans hle, fun e' he' => ?_⟩
    rcases List.mem_cons.1 he' with rfl | he'
    · exact (le_max_right _ _).trans hle
    · exact hes e' he'

theorem stateAfter_lt {since n : ℕ} (hsince : since < n) (h : ∀ e ∈ entries, e.changeId < n) :
    stateAfter entries since < n := by
  induction entries generalizing since with
  | nil => exact hsince
  | cons e es ih =>
    exact ih (max_lt hsince (h e List.mem_cons_self)) fun e' he' => h e' (.tail _ he')

end Page

/-! ## The client -/

structure Client where
  ids : Finset String
  reported : Finset String

def stringsAt (response : Invocation) (name : String) : Finset String :=
  ((((response.arguments.get name).bind Value.asArray).getD []).filterMap Value.asStr).toFinset

def textAt (response : Invocation) (name : String) : String :=
  ((response.arguments.get name).bind Value.asStr).getD ""

def hasMoreChanges (response : Invocation) : Bool :=
  ((response.arguments.get "hasMoreChanges").bind Value.asBool).getD false

def Client.apply (client : Client) (response : Invocation) : Client where
  ids := (client.ids ∪ stringsAt response "created") \ stringsAt response "destroyed"
  reported := client.reported ∪ stringsAt response "created" ∪ stringsAt response "updated"

inductive Outcome
  | cannotCalculate
  | upToDate (client : Client)

def changesArgs (accountId state : String) (maxChanges : ℕ) : Value :=
  .object [("accountId", .str accountId), ("maxChanges", .number maxChanges),
    ("sinceState", .str state)]

section Follow
variable (digest : Digest) (a : ℕ) (c : Collection) (method accountId callId : String)
  (maxChanges : ℕ → ℕ) (w : World)

def follow : ℕ → ℕ → String → Client → Option Outcome
  | 0, _, _, _ => none
  | fuel + 1, page, state, client =>
    match ((collectionChanges a (changesArgs accountId state (maxChanges page)) method callId c).run
      (machine digest) w).1 with
    | .error _ => none
    | .ok response =>
      if textAt response "type" = "cannotCalculateChanges" then some .cannotCalculate
      else if hasMoreChanges response then
        follow fuel (page + 1) (textAt response "newState") (client.apply response)
      else some (.upToDate (client.apply response))

end Follow

section Answers
variable {digest : Digest} {a : ℕ} {c : Collection}
  {method accountId callId : String} {w : World} {since m : ℕ}

theorem sinceOf_changesArgs (h : since < 2 ^ 64) :
    sinceOf (changesArgs accountId (toString since) m) = since := by
  have hparse : parseU64 (toString since) = some since :=
    (parseUnsigned_toString _ since).trans (if_pos h)
  change (parseU64 (toString since)).getD 0 = since
  rw [hparse]
  rfl

theorem maxChangesOf_ne_zero (args : Value) : maxChangesOf args ≠ some 0 := by
  intro h
  have hpos := (Option.filter_eq_some_iff.1 h).2
  simp at hpos

theorem run_changesFrom (hc : c ≠ .emailVanished) {bound : Option ℕ} (hbound : bound ≠ some 0) :
    ∃ k, 0 < k ∧
      ((changesFrom a c method accountId callId since bound).run (machine digest) w).1 = .ok
        (if ChangeLog.floorOf w.records a c ≤ since then
          changesReply method accountId callId since
            ((ChangeLog.changesOf w.records a c since).take k)
            (decide (k < (ChangeLog.changesOf w.records a c since).length))
        else methodError "cannotCalculateChanges" callId) := by
  have hpage := ChangeLog.run_changesPage (a := a) digest hc since hbound w
  have hfloor : (caught (ChangeLog.canCalculate a c since)).run (machine digest) w =
      (.ok (.ok (decide (ChangeLog.floorOf w.records a c ≤ since))), w) := rfl
  refine ⟨bound.getD ((ChangeLog.changesOf w.records a c since).length + 1), ?_, ?_⟩
  · cases bound with
    | none => exact Nat.succ_pos _
    | some m => exact Nat.pos_of_ne_zero fun h => hbound (congrArg some h)
  unfold changesFrom
  rw [run_bind, hfloor]
  by_cases hle : ChangeLog.floorOf w.records a c ≤ since
  · simp only [hle, decide_true]
    unfold caught
    rw [run_bind, run_bind, run_attempt, hpage]
    rfl
  · simp only [hle]
    rfl

theorem collectionChanges_changesArgs (hsince : since < 2 ^ 64) (m : ℕ) :
    collectionChanges a (changesArgs accountId (toString since) m) method callId c =
      changesFrom a c method accountId callId since
        (maxChangesOf (changesArgs accountId (toString since) m)) := by
  have haccount : accountIdOf (changesArgs accountId (toString since) m) = accountId := rfl
  unfold collectionChanges
  rw [sinceOf_changesArgs hsince, haccount]

theorem stringsAt_idStrings (ids : List ℕ) :
    (((Value.asArray (idStrings ids)).getD []).filterMap Value.asStr).toFinset =
      ids.toFinset.image toString := by
  ext id
  simp [idStrings, Value.asArray, Value.asStr]

variable {entries : List ChangeLogEntry} {known living : Finset ℕ} {client : Client}

theorem ids_apply {hasMore : Bool} (h : changeJournal.Consistent known living entries)
    (hsub : living ⊆ known) (hids : client.ids = living.image toString) :
    (client.apply (changesReply method accountId callId since entries hasMore)).ids =
      (changeJournal.replay living entries).image toString := by
  have hcreated : ∀ d, d ∈ (createdDocuments entries).toFinset ↔
      changeJournal.Born entries d ∧ ¬ changeJournal.Dies entries d := fun d => by
    rw [List.mem_toFinset, mem_createdDocuments]
  have hdestroyed : ∀ d, d ∈ (destroyedDocuments entries).toFinset ↔
      changeJournal.Dies entries d ∧ ¬ changeJournal.Born entries d := fun d => by
    rw [List.mem_toFinset, mem_destroyedDocuments]
  have hpiece := Journal.replay_eq_of_piece h hsub hcreated hdestroyed
  change (client.ids ∪ (((Value.asArray (idStrings (createdDocuments entries))).getD []).filterMap
    Value.asStr).toFinset) \ (((Value.asArray (idStrings (destroyedDocuments entries))).getD []).filterMap
    Value.asStr).toFinset = _
  rw [stringsAt_idStrings, stringsAt_idStrings, hids, ← hpiece,
    Finset.image_sdiff _ _ toString_injective, Finset.image_union]

theorem mem_reported_apply {hasMore : Bool} {d : ℕ}
    (h : d ∈ createdDocuments entries ∨ d ∈ updatedDocuments entries) :
    toString d ∈
      (client.apply (changesReply method accountId callId since entries hasMore)).reported := by
  have hlisted : ∀ {ids : List ℕ}, d ∈ ids → toString d ∈
      (((Value.asArray (idStrings ids)).getD []).filterMap Value.asStr).toFinset := by
    intro ids hd
    rw [stringsAt_idStrings]
    exact Finset.mem_image_of_mem _ (List.mem_toFinset.2 hd)
  rcases h with h | h
  · exact Finset.mem_union_left _ (Finset.mem_union_right _ (hlisted h))
  · exact Finset.mem_union_right _ (hlisted h)

theorem changesOf_rest {p rest : List ChangeLogEntry}
    (hentries : ChangeLog.changesOf w.records a c since = entries) (hsplit : p ++ rest = entries) :
    ChangeLog.changesOf w.records a c (stateAfter p since) = rest := by
  have hsorted := ChangeLog.sorted_changesOf w.records a c since
  rw [hentries, ← hsplit] at hsorted
  have hbelow := (List.pairwise_append.1 hsorted).2.2
  obtain ⟨hle, hpage⟩ : since ≤ stateAfter p since ∧ ∀ e ∈ p, e.changeId ≤ stateAfter p since :=
    le_stateAfter
  have habove : ∀ e ∈ rest, stateAfter p since < e.changeId := by
    intro e he
    refine stateAfter_lt ?_ fun e' he' => hbelow e' he' e he
    have hmem : e ∈ ChangeLog.changesOf w.records a c since := by
      rw [hentries, ← hsplit]
      exact List.mem_append_right _ he
    exact (ChangeLog.mem_changesOf.1 hmem).1
  rw [ChangeLog.changesOf_later _ hle, hentries, ← hsplit, List.filter_append,
    List.filter_eq_nil_iff.2 fun e he => by simpa using hpage e he,
    List.filter_eq_self.2 fun e he => by simpa using habove e he, List.nil_append]

/-- One round: the page that the server gives, and what the client does with it. -/
theorem follow_page (hc : c ≠ .emailVanished) (maxChanges : ℕ → ℕ)
    (hentries : ChangeLog.changesOf w.records a c since = entries)
    (hfloor : ChangeLog.floorOf w.records a c ≤ since) (hsince : since < 2 ^ 64)
    (client : Client) (page : ℕ) :
    ∃ m, 0 < m ∧ ∃ reply, reply = changesReply method accountId callId since (entries.take m)
        (decide (m < entries.length)) ∧
      ∀ fuel, follow digest a c method accountId callId maxChanges w (fuel + 1) page
        (toString since) client =
          if m < entries.length then
            follow digest a c method accountId callId maxChanges w fuel (page + 1)
              (toString (stateAfter (entries.take m) since)) (client.apply reply)
          else some (.upToDate (client.apply reply)) := by
  obtain ⟨m, hpos, hrun⟩ := @run_changesFrom digest a c method accountId callId w since hc _
    (maxChangesOf_ne_zero (changesArgs accountId (toString since) (maxChanges page)))
  rw [if_pos hfloor, hentries] at hrun
  refine ⟨m, hpos, _, rfl, fun fuel => ?_⟩
  rw [follow, collectionChanges_changesArgs hsince, hrun]
  by_cases hmore : m < entries.length
  · simp only [hmore]
    rfl
  · simp only [hmore, decide_false]
    rfl

theorem follow_complete (hc : c ≠ .emailVanished) (maxChanges : ℕ → ℕ)
    (hentries : ChangeLog.changesOf w.records a c since = entries)
    (hfloor : ChangeLog.floorOf w.records a c ≤ since) (hsince : since < 2 ^ 64)
    (hrange : ∀ e ∈ entries, e.changeId < 2 ^ 64)
    (hconsistent : changeJournal.Consistent known living entries) (hsub : living ⊆ known)
    (hids : client.ids = living.image toString) (page : ℕ) :
    ∃ fuel client', follow digest a c method accountId callId maxChanges w fuel page
        (toString since) client = some (.upToDate client') ∧
      client'.ids = (changeJournal.replay living entries).image toString ∧
      client.reported ⊆ client'.reported ∧
      ∀ d ∈ changeJournal.replay living entries, changeJournal.Touched entries d →
        toString d ∈ client'.reported := by
  induction hn : entries.length using Nat.strong_induction_on
    generalizing entries since page client known living with
  | _ n ih =>
    obtain ⟨m, hpos, reply, hreply, hfollow⟩ := @follow_page digest a c method accountId callId w
      since entries hc maxChanges hentries hfloor hsince client page
    have hsplit := List.take_append_drop m entries
    generalize hp : entries.take m = p at hsplit hreply hfollow
    generalize hq : entries.drop m = rest at hsplit
    have hcons := hconsistent
    rw [← hsplit] at hcons
    obtain ⟨hfirst, hrest⟩ := Journal.consistent_append.1 hcons
    have hreplay : changeJournal.replay living entries =
        changeJournal.replay (changeJournal.replay living p) rest := by
      rw [← hsplit, Journal.replay_append]
    have hlive : ∀ d ∈ changeJournal.replay living entries, ¬ changeJournal.Dies p d := by
      intro d hd ⟨e, he, hdies⟩
      refine ((Journal.mem_replay hconsistent hsub).1 hd).2 ⟨e, ?_, hdies⟩
      rw [← hsplit]
      exact List.mem_append_left _ he
    have hpage : (client.apply reply).ids = (changeJournal.replay living p).image toString := by
      rw [hreply]
      exact ids_apply hfirst hsub hids
    have htold : ∀ d ∈ changeJournal.replay living entries, changeJournal.Touched p d →
        toString d ∈ (client.apply reply).reported := by
      intro d hd htouched
      rw [hreply]
      exact mem_reported_apply (mem_created_or_updated htouched (hlive d hd))
    have hkept : client.reported ⊆ (client.apply reply).reported := fun x hx =>
      Finset.mem_union_left _ (Finset.mem_union_left _ hx)
    by_cases hmore : m < entries.length
    · -- The rest of the log is shorter, and it is what can be read from the state of the page.
      obtain ⟨hle, -⟩ : since ≤ stateAfter p since ∧ _ := le_stateAfter
      have hstate : stateAfter p since < 2 ^ 64 := stateAfter_lt hsince fun e he =>
        hrange e (hsplit ▸ List.mem_append_left _ he)
      have hshorter : rest.length < n := by
        rw [← hq, List.length_drop]
        omega
      obtain ⟨fuel, client', hfuel, hids', hreported, htouched⟩ := ih rest.length hshorter
        (changesOf_rest hentries hsplit) (hfloor.trans hle) hstate
        (fun e he => hrange e (hsplit ▸ List.mem_append_right _ he)) hrest
        (Journal.replay_subset hsub) hpage (page + 1) rfl
      refine ⟨fuel + 1, client', ?_, ?_, hkept.trans hreported, fun d hd ⟨e, he, hkey⟩ => ?_⟩
      · rw [hfollow, if_pos hmore, hfuel]
      · rw [hreplay, hids']
      · rw [← hsplit] at he
        rcases List.mem_append.1 he with he | he
        · exact hreported (htold d hd ⟨e, he, hkey⟩)
        · rw [hreplay] at hd
          exact htouched d hd ⟨e, he, hkey⟩
    · have hnone : rest = [] := by
        rw [← hq]
        exact List.drop_eq_nil_of_le (not_lt.1 hmore)
      subst hnone
      rw [List.append_nil] at hsplit
      subst hsplit
      refine ⟨1, client.apply reply, ?_, hpage, hkept, htold⟩
      rw [hfollow, if_neg hmore]

/-- A client that held the ids of a collection at some point of a run, and follows its
changes to the end of the run, is told that they cannot be calculated, the log having
been cut after that point, or comes to hold the ids there are, with everything reported
that was changed in between. -/
theorem paging_complete {w₀ w₁ w₂ : World} {h₁ h₂ : List ChangeLogEntry} (hc : c ≠ .emailVanished)
    (hfresh : ChangeLog.Fresh a c w₀) (hbefore : ChangeLog.LogRun digest a c w₀ h₁ w₁)
    (hafter : ChangeLog.LogRun digest a c w₁ h₂ w₂)
    (hconsistent : changeJournal.Consistent ∅ ∅ (h₁ ++ h₂))
    (hrange : ChangeLog.counterOf a c w₂.records < 2 ^ 63)
    (maxChanges : ℕ → ℕ) {state : String}
    (hstate : ((collectionState a c).run (machine digest) w₁).1 = .ok state)
    (hclient : client.ids = (changeJournal.replay ∅ h₁).image toString) :
    ∃ fuel outcome, follow digest a c method accountId callId maxChanges w₂ fuel 0 state client =
        some outcome ∧
      (outcome = .cannotCalculate ∧
          ChangeLog.counterOf a c w₁.records < ChangeLog.floorOf w₂.records a c ∨
        ∃ client', outcome = .upToDate client' ∧
        client'.ids = (changeJournal.replay ∅ (h₁ ++ h₂)).image toString ∧
        ∀ d ∈ changeJournal.replay ∅ (h₁ ++ h₂), changeJournal.Touched h₂ d →
          toString d ∈ client'.reported) := by
  have hr₁ := hbefore.remembers hfresh.1
  have h0 : 0 ≤ ChangeLog.counterOf a c w₁.records := hfresh.1.trans hr₁.counter
  have hr₂ := hafter.remembers h0
  obtain ⟨since, hsince⟩ : ∃ since : ℕ, (since : ℤ) = ChangeLog.counterOf a c w₁.records :=
    ⟨_, Int.toNat_of_nonneg h0⟩
  have hstate' : ((collectionState a c).run (machine digest) w₁).1 =
      .ok (toString (max (ChangeLog.counterOf a c w₁.records) 0).toNat) := rfl
  obtain rfl : state = toString since := by
    rw [hstate'] at hstate
    rw [← Except.ok.inj hstate, ← hsince]
    simp
  have hcounter := hr₂.counter
  have hsmall : since < 2 ^ 64 := by omega
  obtain ⟨hcons₁, hcons₂⟩ := Journal.consistent_append.1 hconsistent
  by_cases hfloor : ChangeLog.floorOf w₂.records a c ≤ since
  · have hentries := ChangeLog.changesOf_eq hfresh hbefore hafter hsince hfloor
    have hrange₂ : ∀ e ∈ h₂, e.changeId < 2 ^ 64 := by
      intro e he
      have hle := (hr₂.range e he).2
      omega
    obtain ⟨fuel, client', hfuel, hids, -, htold⟩ :
        ∃ fuel client', follow digest a c method accountId callId maxChanges w₂ fuel 0
          (toString since) client = some (.upToDate client') ∧ _ :=
      follow_complete hc maxChanges hentries hfloor hsmall hrange₂ hcons₂
        (Journal.replay_subset (Finset.Subset.refl ∅)) hclient 0
    refine ⟨fuel, _, hfuel, .inr ⟨client', rfl, ?_, ?_⟩⟩
    · rw [hids, Journal.replay_append]
    · intro d hd
      rw [Journal.replay_append] at hd
      exact htold d hd
  · refine ⟨1, .cannotCalculate, ?_, .inl ⟨rfl, by omega⟩⟩
    obtain ⟨k, -, hrun⟩ := @run_changesFrom digest a c method accountId callId w₂ since hc _
      (maxChangesOf_ne_zero (changesArgs accountId (toString since) (maxChanges 0)))
    rw [follow, collectionChanges_changesArgs hsmall, hrun, if_neg hfloor]
    rfl

/-! ## An example -/

def oneMailbox : World :=
  ((ChangeLog.record 1 .mailbox 6 .insert).run (machine id) (World.empty (.new 0) 0)).2

def anotherMailbox : World :=
  ((ChangeLog.record 1 .mailbox 7 .insert).run (machine id) oneMailbox).2

def otherMailbox : World :=
  ((ChangeLog.record 1 .mailbox 6 .delete).run (machine id) anotherMailbox).2

/-- A mailbox is created and another deleted; the client reads one change at a time. -/
theorem paging_otherMailbox :
    ∃ fuel client', follow id 1 .mailbox "Mailbox/changes" "1" "c0" (fun _ => 1) otherMailbox fuel 0
        "1" ⟨{"6"}, ∅⟩ = some (.upToDate client') ∧ client'.ids = {"7"} ∧ "7" ∈ client'.reported := by
  have hbefore : ChangeLog.LogRun id 1 .mailbox (World.empty (.new 0) 0) [⟨1, 6, .insert⟩]
      oneMailbox := .record (.refl _) rfl
  have hafter : ChangeLog.LogRun id 1 .mailbox oneMailbox [⟨2, 7, .insert⟩, ⟨3, 6, .delete⟩]
      otherMailbox := .record (.record (.refl _) rfl) rfl
  have hcons : changeJournal.Consistent ∅ ∅
      ([⟨1, 6, .insert⟩] ++ [⟨2, 7, .insert⟩, ⟨3, 6, .delete⟩]) := by
    simp [Journal.Consistent, Journal.step, changeJournal]
  have hclient : (⟨{"6"}, ∅⟩ : Client).ids =
      (changeJournal.replay ∅ [⟨1, 6, .insert⟩]).image toString := by decide
  obtain ⟨fuel, outcome, hfollow, houtcome⟩ := paging_complete (by decide) ⟨by decide, fun _ => rfl⟩
    hbefore hafter hcons (by decide) (fun _ => 1) rfl hclient
  rcases houtcome with ⟨-, hfloor⟩ | ⟨client', rfl, hids, htold⟩
  · exact absurd hfloor (by decide)
  · exact ⟨fuel, client', hfollow, hids, htold 7 (by decide) ⟨⟨2, 7, .insert⟩, by simp, rfl⟩⟩

end Answers

end IrixMail.Jmap
