import IrixMail.Jmap.MailboxGet
import IrixMail.Jmap.Changes
import IrixMail.Mail.Revisions

/-!
# The state of the mailboxes

The state string of `Mailbox/get` is the head of the log of the mailboxes, but the
objects also count messages, and what changes messages is written to the log of the
emails alone. So the state stands for the objects as long as no message enters or
leaves a mailbox or changes whether it was seen.
-/

namespace IrixMail.Jmap
open Library Prog Store Mail WriteOp List

def mailboxVersion (s : Records) (a : ℕ) : ℤ := s.counter (.number a .mailbox 0)

def seenIn (mailboxId : ℕ) (data : MessageData) : Option Bool :=
  if data.inMailbox mailboxId then some (decide (.seen ∈ data.keywords)) else none

def placeAt (s : Records) (a mailboxId d : ℕ) : Option Bool :=
  (s.lookup (.data a d)).bind (seenIn mailboxId)

/-- Nothing that `Mailbox/get` shows of the mailbox differs. -/
structure SameMailbox (a id : ℕ) (s t : Records) : Prop where
  row : t.lookup (.mailbox a id) = s.lookup (.mailbox a id)
  places : ∀ d, placeAt t a id d = placeAt s a id d

variable {s t : Records} {a : ℕ} {w : World}

theorem SameMailbox.trans {id : ℕ} {u : Records} (h : SameMailbox a id s t)
    (h' : SameMailbox a id t u) : SameMailbox a id s u :=
  ⟨h'.row.trans h.row, fun d => (h'.places d).trans (h.places d)⟩

/-! ## What `Mailbox/get` reads -/

theorem iterate_mailboxes (h : ∀ id, SameMailbox a id s t) :
    t.iterate ⟨.property, some a, some .mailbox⟩ = s.iterate ⟨.property, some a, some .mailbox⟩ :=
  iterate_mailboxes_congr fun id => (h id).row

def countsRow (mailboxId : ℕ) (unreadOnly : Bool) : Sigma Val → Bool
  | ⟨.data _ _, data⟩ => (seenIn mailboxId data).any fun seen => !unreadOnly || !seen
  | _ => false

theorem mailboxCounts_eq (rows : List (Sigma Val)) (mailboxId : ℕ) :
    mailboxCounts (rows.filterMap MessageStoreCache.cachedEntry) mailboxId =
      (rows.countP (countsRow mailboxId false), rows.countP (countsRow mailboxId true)) := by
  unfold mailboxCounts
  simp only [← countP_eq_length_filter, countP_filter, countP_filterMap]
  refine congrArg₂ Prod.mk (countP_congr ?_) (countP_congr ?_)
  all_goals
    rintro ⟨l, v⟩ -
    cases l with
    | data a d =>
      have hentry : MessageStoreCache.cachedEntry ⟨.data a d, v⟩ = some (.fromData d v) := rfl
      have hin : (MessageCacheEntry.fromData d v).inMailbox mailboxId = v.inMailbox mailboxId := rfl
      have hseen : (MessageCacheEntry.fromData d v).hasKeyword .seen =
          decide (.seen ∈ v.keywords) := rfl
      cases hplace : v.inMailbox mailboxId <;>
        simp [countsRow, seenIn, hentry, hin, hseen, hplace]
    | _ => simp [countsRow, MessageStoreCache.cachedEntry]

theorem countP_rows {id : ℕ} (h : SameMailbox a id s t) (unreadOnly : Bool) :
    (t.iterate (.ofCollection .property a .email)).countP (countsRow id unreadOnly) =
      (s.iterate (.ofCollection .property a .email)).countP (countsRow id unreadOnly) := by
  refine Int.ofNat_inj.1 ((Table.countP_scan Loc.encode _ _ t).trans
    (Eq.trans (Table.total_congr _ fun l => ?_) (Table.countP_scan Loc.encode _ _ s).symm))
  by_cases hl : ∃ d, l = .data a d
  · obtain ⟨d, rfl⟩ := hl
    have hplace := h.places d
    unfold placeAt at hplace
    revert hplace
    generalize s.lookup (.data a d) = x, t.lookup (.data a d) = y
    intro hplace
    cases x with
    | none => cases y with
      | none => rfl
      | some y => simp [countsRow, show seenIn id y = none from hplace]
    | some x => cases y with
      | none => simp [countsRow, show seenIn id x = none from hplace.symm]
      | some y => simp [countsRow, show seenIn id y = seenIn id x from hplace]
  · -- The rows of other locations are not counted.
    have hzero : ∀ v : Val l, ((KeyPrefix.ofCollection .property a .email).encode.isPrefixOf
        l.encode && countsRow id unreadOnly ⟨l, v⟩) = false := by
      cases l with
      | data b d =>
        have hb : a ≠ b := fun hab => hl ⟨d, by rw [hab]⟩
        simp [KeyPrefix.ofCollection, KeyPrefix.encode, Loc.encode, Key.encode, hb]
      | _ => simp [countsRow]
    cases s.lookup l <;> cases t.lookup l <;>
      simp only [Table.weigh_none, Table.weigh_some, hzero, Bool.false_eq_true, if_false]

def entriesIn (s : Records) (a : ℕ) : List MessageCacheEntry :=
  (s.iterate (.ofCollection .property a .email)).filterMap MessageStoreCache.cachedEntry

theorem SameMailbox.counts {id : ℕ} (h : SameMailbox a id s t) :
    mailboxCounts (entriesIn t a) id = mailboxCounts (entriesIn s a) id := by
  unfold entriesIn
  rw [mailboxCounts_eq, mailboxCounts_eq, countP_rows h, countP_rows h]

def shownMailboxes (s : Records) (a : ℕ) : List Mailbox :=
  let rows := ((s.iterate ⟨.property, some a, some .mailbox⟩).filterMap mailboxOfRow).insertionSort
    fun x y => x.id ≤ y.id
  if rows.isEmpty then provisionMailboxes 0 else rows

theorem run_mailboxGet (digest : Digest) (a : ℕ) (args : Value) (callId : String)
    (w : World) :
    (mailboxGet a args callId).run (machine digest) w =
      (.ok ⟨"Mailbox/get", .object
        [("accountId", .str (accountIdOf args)),
          ("list", .array (mailboxList (entriesIn w.records a) (requestedIds args)
            (shownMailboxes w.records a))),
          ("notFound", .array (mailboxesNotFound (requestedIds args) (shownMailboxes w.records a))),
          ("state", .str (toString (max (mailboxVersion w.records a) 0).toNat))], callId⟩, w) :=
  rfl

theorem mailboxList_same (h : ∀ id, SameMailbox a id s t) (wanted : Option (List String)) :
    mailboxList (entriesIn t a) wanted (shownMailboxes t a) =
      mailboxList (entriesIn s a) wanted (shownMailboxes s a) := by
  unfold shownMailboxes
  rw [iterate_mailboxes h]
  refine map_congr_left fun x _ => ?_
  unfold mailboxObject
  rw [(h x.1.id).counts]

/-! ## Changes of mail -/

structure OnlyMail (a : ℕ) (K : Set ℕ) (s t : Records) : Prop where
  number : ∀ c d, s.counter (.number a c d) ≤ t.counter (.number a c d)
  rows : ∀ id, t.lookup (.mailbox a id) = s.lookup (.mailbox a id)
  changes : ∀ n, t.lookup (.change a .mailbox n) = s.lookup (.change a .mailbox n)
  places : ∀ id ∉ K, ∀ d, placeAt t a id d = placeAt s a id d

theorem OnlyMail.refl (a : ℕ) (K : Set ℕ) (s : Records) : OnlyMail a K s s :=
  ⟨fun _ _ => le_rfl, fun _ => rfl, fun _ => rfl, fun _ _ _ => rfl⟩

theorem OnlyMail.trans {K : Set ℕ} {u : Records} (h : OnlyMail a K s t)
    (h' : OnlyMail a K t u) : OnlyMail a K s u where
  number c d := (h.number c d).trans (h'.number c d)
  rows id := (h'.rows id).trans (h.rows id)
  changes n := (h'.changes n).trans (h.changes n)
  places id hid d := (h'.places id hid d).trans (h.places id hid d)

theorem OnlyMail.mono {K L : Set ℕ} (h : OnlyMail a K s t) (hKL : K ⊆ L) : OnlyMail a L s t :=
  ⟨h.number, h.rows, h.changes, fun id hid => h.places id fun hmem => hid (hKL hmem)⟩

section Steps
variable {P : MessageData → MessageData → Prop} {s t : Records} {a : ℕ} {K : Set ℕ}

theorem lookup_of_mailStep {digest : Digest}
    (h : MailStep digest (fun _ _ _ => False) P s t) {l : Loc}
    (hl : (∃ id, l = .mailbox a id) ∨ ∃ n, l = .change a .mailbox n) :
    t.lookup l = s.lookup l := by
  have hnumber : ∀ b c d, l ≠ .counter (.number b c d) := by
    rcases hl with ⟨id, rfl⟩ | ⟨n, rfl⟩ <;> simp
  cases h with
  | calm hcalm => exact hcalm.lookup l hnumber
  | file hF => exact hF.elim
  | update hcalm hops =>
    rw [← hcalm.lookup l hnumber]
    rcases hl with ⟨id, rfl⟩ | ⟨n, rfl⟩ <;>
      exact lookup_updated_of_ne hops (by simp) (by simp) (by simp)
  | remove hcalm hdata hmetadata hlinked hvanished hn =>
    rw [← hcalm.lookup l hnumber]
    rcases hl with ⟨id, rfl⟩ | ⟨n, rfl⟩
    · rw [lookup_released (by simp)]
      exact lookup_removed_of_ne hlinked hvanished (by simp) (by simp) (by simp)
    · rw [lookup_released (by simp)]
      exact lookup_removed_change hlinked hvanished (by simp) a n

theorem onlyMail_of_mailStep {digest : Digest}
    (h : MailStep digest (fun _ _ _ => False) P s t)
    (hplaces : ∀ id ∉ K, ∀ d, placeAt t a id d = placeAt s a id d) : OnlyMail a K s t where
  number c d := h.number_le a c d
  rows id := lookup_of_mailStep h (.inl ⟨id, rfl⟩)
  changes n := lookup_of_mailStep h (.inr ⟨n, rfl⟩)
  places := hplaces

theorem onlyMail_of_updates (digest : Digest) {u : Records} {ops : List WriteOp}
    (hP : ∀ x y, P x y → ∀ id ∉ K, seenIn id y = seenIn id x) (hcalm : Calm s u)
    (hops : UpdateOps P a s u 0 ops) : OnlyMail a K s (u.batch ops) := by
  have hstep : MailStep digest (fun _ _ _ => False) P s (u.batch ops) := .update hcalm hops
  refine onlyMail_of_mailStep hstep fun id hid d => ?_
  unfold placeAt
  rcases lookup_updated_data hops a d with h | ⟨x, y, hx, hxy, h⟩
  · rw [h, hcalm.data]
  · rw [h, hx]
    exact hP x y hxy id hid

end Steps

section Members
variable (env : Env) {a : ℕ} {K : Set ℕ}

theorem onlyMail_updateMessage (d : ℕ) {mutate : Mutation}
    (hmutate : ∀ x y, mutate x = .ok y → ∀ id ∉ K, seenIn id y = seenIn id x) (w : World) :
    OnlyMail a K w.records ((updateMessage a d mutate).run (machine env.digest) w).2.records := by
  obtain ⟨t, ops, hcalm, hops, heq⟩ := records_updateMessage env a d hmutate w
  rw [heq]
  exact onlyMail_of_updates env.digest (fun _ _ h => h) hcalm hops

theorem onlyMail_updateMessages (ds : List ℕ) {mutate : ℕ → Mutation}
    (hmutate : ∀ d x y, mutate d x = .ok y → ∀ id ∉ K, seenIn id y = seenIn id x)
    (hpos : 0 ≤ emailCounter w.records a) :
    OnlyMail a K w.records ((updateMessages a ds mutate).run (machine env.digest) w).2.records := by
  obtain ⟨t, ops, hcalm, hops, heq⟩ := records_updateMessages env a ds hmutate hpos
  rw [heq]
  exact onlyMail_of_updates env.digest (fun _ _ h => h) hcalm hops

theorem inMailbox_removeMailbox (data : MessageData) {k id : ℕ} (hid : id ≠ k) :
    (data.removeMailbox k).inMailbox id = data.inMailbox id := by
  unfold MessageData.removeMailbox MessageData.inMailbox
  rw [any_filter]
  refine any_congr rfl fun m => ?_
  by_cases hm : m.mailboxId = id
  · simp [hm, hid]
  · simp [hm]

theorem seenIn_single {data : MessageData} {k id : ℕ} (hk : data.inMailbox k)
    (hlength : data.mailboxes.length ≤ 1) (hid : id ∉ ({k} : Set ℕ)) : seenIn id data = none := by
  refine if_neg fun hin => hid ?_
  obtain ⟨m, hm, rfl⟩ : ∃ m ∈ data.mailboxes, m.mailboxId = k := by
    simpa [MessageData.inMailbox] using hk
  obtain ⟨m', hm', rfl⟩ : ∃ m ∈ data.mailboxes, m.mailboxId = id := by
    simpa [MessageData.inMailbox] using hin
  obtain ⟨x, hx⟩ : ∃ x, data.mailboxes = [x] :=
    length_eq_one_iff.1 (le_antisymm hlength (length_pos_of_mem hm))
  rw [hx, mem_singleton] at hm hm'
  rw [hm, hm']
  rfl

theorem run_leaveMailbox {k d : ℕ} {data : MessageData}
    (hpos : 0 ≤ emailCounter w.records a) (hdata : w.records.lookup (.data a d) = some data)
    (hk : data.inMailbox k) :
    ∃ w', (leaveMailbox env a k d data.mailboxes.length id).run (machine env.digest) w =
        (.ok (), w') ∧ OnlyMail a {k} w.records w'.records ∧
      ∀ e ≠ d, w'.records.lookup (.data a e) = w.records.lookup (.data a e) := by
  unfold leaveMailbox
  split
  next hlength =>
    obtain ⟨w', hrun, -, hsets⟩ := run_deleteMessage env hpos hdata
    have hstep := step_deleteMessage env (F := fun _ _ _ => False) (P := fun _ _ => True) a d w
    rw [hrun] at hstep
    refine ⟨w', ?_, onlyMail_of_mailStep hstep fun id hid e => ?_, fun e he => ?_⟩
    · rw [run_bind, hrun]
      rfl
    · unfold placeAt
      rw [hsets e]
      split
      next he => rw [he, hdata, Option.bind_some, seenIn_single hk hlength hid, Option.bind_none]
      next he => rfl
    · rw [hsets e, if_neg he]
  next hlength =>
    obtain ⟨w', hrun, -, hsets⟩ := run_updateMessage env.digest
      (fun data => .ok (id (data.removeMailbox k))) (Calm.refl _) hpos hdata rfl
      (fun e he => .inl (mem_of_mem_filter he)) (·.sublist (filter_sublist.map _))
    have hmail : OnlyMail a {k} w.records
        ((updateMessage a d fun data => .ok (id (data.removeMailbox k))).run
          (machine env.digest) w).2.records := by
      refine onlyMail_updateMessage env d (fun x y hxy id hid => ?_) w
      obtain rfl := Except.ok.inj hxy
      rw [seenIn, id_eq, inMailbox_removeMailbox x hid]
      rfl
    rw [hrun] at hmail
    refine ⟨w', ?_, hmail, fun e he => ?_⟩
    · rw [run_bind, hrun]
      rfl
    · rw [hsets e, if_neg he]

def Current (a : ℕ) (s : Records) (entry : MessageCacheEntry) : Prop :=
  ∃ data, s.lookup (.data a entry.documentId) = some data ∧ data.mailboxes = entry.mailboxes

theorem run_removeMembers (k : ℕ) (entries : List MessageCacheEntry)
    (hpos : 0 ≤ emailCounter w.records a) (hin : ∀ entry ∈ entries, entry.inMailbox k)
    (hcurrent : ∀ entry ∈ entries, Current a w.records entry)
    (hnodup : (entries.map MessageCacheEntry.documentId).Nodup) :
    ∃ w', (removeMembers env a k entries).run (machine env.digest) w = (.ok (), w') ∧
      OnlyMail a {k} w.records w'.records := by
  induction entries generalizing w with
  | nil => exact ⟨w, rfl, OnlyMail.refl _ _ _⟩
  | cons entry rest ih =>
    obtain ⟨data, hdata, hmailboxes⟩ := hcurrent entry mem_cons_self
    have hk : data.inMailbox k := by
      rw [MessageData.inMailbox, hmailboxes]
      exact hin entry mem_cons_self
    obtain ⟨u, hrun, hmail, hothers⟩ := run_leaveMailbox env hpos hdata hk
    obtain ⟨hfirst, hnodup'⟩ := nodup_cons.1 hnodup
    -- The records of the other members are still those that were cached.
    have hcurrent' : ∀ e ∈ rest, Current a u.records e := by
      intro e he
      obtain ⟨x, hx, hxs⟩ := hcurrent e (mem_cons_of_mem _ he)
      have hne : e.documentId ≠ entry.documentId := fun h =>
        hfirst (h ▸ mem_map_of_mem he)
      exact ⟨x, (hothers _ hne).trans hx, hxs⟩
    obtain ⟨w', hrun', hmail'⟩ := ih (hpos.trans (hmail.number .email 0))
      (fun e he => hin e (mem_cons_of_mem _ he)) hcurrent' hnodup'
    refine ⟨w', ?_, hmail.trans hmail'⟩
    rw [hmailboxes] at hrun
    unfold removeMembers
    rw [run_bind, hrun]
    exact hrun'

theorem current_of_mem {entry : MessageCacheEntry} (h : entry ∈ entriesIn s a) :
    Current a s entry := by
  obtain ⟨row, hrow, hentry⟩ := mem_filterMap.1 h
  obtain ⟨data, -, hdata⟩ := row_of_cachedEntry hrow hentry
  exact ⟨data, hdata⟩

end Members

/-! ## Edits of mailboxes -/

/-- Between the states the log of the mailboxes tells of every mailbox that differs. -/
structure Accounted (a : ℕ) (s t : Records) : Prop where
  emails : emailCounter s a ≤ emailCounter t a
  version : mailboxVersion s a ≤ mailboxVersion t a
  kept : ∀ n : ℕ, n ≤ mailboxVersion s a →
    t.lookup (.change a .mailbox n) = s.lookup (.change a .mailbox n)
  told : ∀ id, SameMailbox a id s t ∨ ∃ (n : ℕ) (change : ChangeValue), mailboxVersion s a < n ∧
    n ≤ mailboxVersion t a ∧ t.lookup (.change a .mailbox n) = some change ∧
    change.documentId = id

theorem Accounted.trans {u : Records} (h : Accounted a s t) (h' : Accounted a t u) :
    Accounted a s u where
  emails := h.emails.trans h'.emails
  version := h.version.trans h'.version
  kept n hn := (h'.kept n (hn.trans h.version)).trans (h.kept n hn)
  told id := by
    rcases h'.told id with hsame' | ⟨n, change, hlow, hhigh, hchange, hid⟩
    · rcases h.told id with hsame | ⟨n, change, hlow, hhigh, hchange, hid⟩
      · exact .inl (hsame.trans hsame')
      · exact .inr ⟨n, change, hlow, hhigh.trans h'.version,
          (h'.kept n hhigh).trans hchange, hid⟩
    · exact .inr ⟨n, change, h.version.trans_lt hlow, hhigh, hchange, hid⟩

theorem OnlyMail.accounted (h : OnlyMail a ∅ s t) : Accounted a s t where
  emails := h.number .email 0
  version := h.number .mailbox 0
  kept n _ := h.changes n
  told id := .inl ⟨h.rows id, h.places id (by simp)⟩

section Edit
variable {a id : ℕ} {kind : ChangeKind} {op : WriteOp} {s t : Records}

def nextVersion (s : Records) (a : ℕ) : ℕ := (max (mailboxVersion s a + 1) 1).toNat

def editedRow (a id : ℕ) (kind : ChangeKind) (op : WriteOp) (s : Records) : Records :=
  Records.batch ((WriteOp.add (.number a .mailbox 0) 1).apply s)
    [op, .set (.change a .mailbox (nextVersion s a)) ⟨id, kind⟩]

theorem lookup_editedRow_of_ne {l : Loc} (hcounter : l ≠ .counter (.number a .mailbox 0))
    (hop : op.loc ≠ l) (hchange : l ≠ .change a .mailbox (nextVersion s a)) :
    (editedRow a id kind op s).lookup l = s.lookup l := by
  have hdraw : (WriteOp.add (.number a .mailbox 0) 1).loc ≠ l := hcounter.symm
  rw [editedRow, Records.lookup_batch, effects_cons, effects_cons, effects_nil,
    effect_set_of_ne hchange.symm, effect_of_ne hop, WriteOp.lookup_apply, effect_of_ne hdraw]

theorem version_editedRow (hop : op.loc = .mailbox a id) :
    mailboxVersion (editedRow a id kind op s) a = mailboxVersion s a + 1 := by
  unfold mailboxVersion Records.counter
  rw [editedRow, Records.lookup_batch, effects_cons, effects_cons,
    effect_set_of_ne (by simp), effect_of_ne (by simp [hop]), WriteOp.lookup_apply,
    effect_add_self]
  rfl

theorem lookup_editedRow_change :
    (editedRow a id kind op s).lookup (.change a .mailbox (nextVersion s a)) = some ⟨id, kind⟩ := by
  rw [editedRow, Records.lookup_batch, effects_cons, effects_cons, effects_nil, effect_set_self]

theorem accounted_editedRow (hop : op.loc = .mailbox a id) (hmail : OnlyMail a {id} s t)
    (hversion : 0 ≤ mailboxVersion s a) : Accounted a s (editedRow a id kind op t) := by
  have hle : mailboxVersion s a ≤ mailboxVersion t a := hmail.number .mailbox 0
  have hnext : (nextVersion t a : ℤ) = mailboxVersion t a + 1 := by
    unfold nextVersion
    omega
  refine ⟨?_, ?_, fun n hn => ?_, fun k => ?_⟩
  · refine (hmail.number .email 0).trans_eq ?_
    unfold emailCounter Records.counter
    rw [lookup_editedRow_of_ne (by simp) (by simp [hop]) (by simp)]
  · rw [version_editedRow hop]
    omega
  · have hne : n ≠ nextVersion t a := by omega
    rw [lookup_editedRow_of_ne (by simp) (by simp [hop]) (by simpa using hne), hmail.changes]
  · by_cases hk : k = id
    · refine .inr ⟨nextVersion t a, ⟨id, kind⟩, by omega, ?_, lookup_editedRow_change, hk.symm⟩
      rw [version_editedRow hop, hnext]
    · refine .inl ⟨?_, fun d => ?_⟩
      · rw [lookup_editedRow_of_ne (by simp) (by simpa [hop] using Ne.symm hk) (by simp),
          hmail.rows]
      · refine Eq.trans ?_ (hmail.places k hk d)
        unfold placeAt
        rw [lookup_editedRow_of_ne (by simp) (by simp [hop]) (by simp)]

end Edit

theorem onlyMail_add (s : Records) {d : ℕ} {c : Collection} {amount : ℤ} (h : 0 ≤ amount) :
    OnlyMail a ∅ s ((WriteOp.add (.number a c d) amount).apply s) := by
  have hlookup : ∀ l, l ≠ .counter (.number a c d) →
      AList.lookup l ((WriteOp.add (.number a c d) amount).apply s) = s.lookup l := by
    intro l hl
    have hne : (WriteOp.add (.number a c d) amount).loc ≠ l := hl.symm
    rw [WriteOp.lookup_apply, effect_of_ne hne]
  refine ⟨fun c' d' => ?_, fun id => hlookup _ (by simp), fun n => hlookup _ (by simp),
    fun id _ e => ?_⟩
  · rw [WriteOp.counter_apply (WriteOp.additive_add _ _), WriteOp.amountAt]
    split <;> omega
  · unfold placeAt
    rw [hlookup _ (by simp)]

section Edits
variable (env : Env) (a : ℕ) (w : World)

theorem run_allocateMailboxId_bind {α : Type} (f : ℕ → Action α) :
    ∃ id w', OnlyMail a ∅ w.records w'.records ∧
      (allocateMailboxId a >>= f).run (machine env.digest) w = (f id).run (machine env.digest) w' := by
  let u := (machine env.digest (.addAndGet (.number a .mailbox mailboxIdCounter) 1) w).2
  have hfirst : OnlyMail a ∅ w.records u.records := onlyMail_add w.records (by simp)
  unfold allocateMailboxId loadMailboxes
  simp only [bind_assoc, pure_eq, ret_bind]
  rw [run_exec_bind, run_exec_bind]
  split
  next hlt => exact ⟨_, u, hfirst, rfl⟩
  next hle =>
    exact ⟨_, _, hfirst.trans (onlyMail_add u.records (by omega)), rfl⟩

theorem accounted_createMailbox (hversion : 0 ≤ mailboxVersion w.records a) (name : String)
    (uidValidity : ℕ) :
    Accounted a w.records
      ((createMailbox a name uidValidity).run (machine env.digest) w).2.records := by
  unfold createMailbox
  obtain ⟨id, u, hmail, hrun⟩ := run_allocateMailboxId_bind env a w _
  rw [hrun]
  exact accounted_editedRow rfl (hmail.mono (Set.empty_subset _)) hversion

theorem accounted_renameMailbox (hversion : 0 ≤ mailboxVersion w.records a) (id : ℕ)
    (newName : String) :
    Accounted a w.records ((renameMailbox a id newName).run (machine env.digest) w).2.records := by
  unfold renameMailbox loadMailboxes
  rw [bind_assoc, run_exec_bind]
  simp only [pure_eq, ret_bind]
  split
  next hnone => exact (OnlyMail.refl a ∅ w.records).accounted
  next mailbox hsome =>
    have hid : mailbox.id = id := by simpa using find?_some hsome
    refine accounted_editedRow ?_ (OnlyMail.refl _ _ _) hversion
    rw [← hid]
    rfl

theorem accounted_deleteMailbox (hemails : 0 ≤ emailCounter w.records a)
    (hversion : 0 ≤ mailboxVersion w.records a) (id : ℕ) (removeEmails : Bool) :
    Accounted a w.records
      ((deleteMailbox env a id removeEmails).run (machine env.digest) w).2.records := by
  let members := (entriesIn w.records a).filter fun entry => entry.inMailbox id
  have hrun : (deleteMailbox env a id removeEmails).run (machine env.digest) w =
      (if !removeEmails && !members.isEmpty then pure .hasMail
        else do
          removeMembers env a id members
          let recorded ← ChangeLog.recordOp a .mailbox id .delete
          exec (.batch [.delete (.mailbox a id), recorded.2])
          pure .deleted : Action MailboxDelete).run (machine env.digest) w := rfl
  rw [hrun]
  split
  next hkept => exact (OnlyMail.refl a ∅ w.records).accounted
  next hremoved =>
    have hnodup : (members.map MessageCacheEntry.documentId).Nodup :=
      (nodup_cached w.records a).sublist (filter_sublist.map _)
    obtain ⟨u, hmembers, hmail⟩ := run_removeMembers env id members hemails
      (fun entry hentry => (mem_filter.1 hentry).2)
      (fun entry hentry => current_of_mem (mem_of_mem_filter hentry)) hnodup
    rw [run_bind, hmembers]
    exact accounted_editedRow rfl hmail hversion

end Edits

/-! ## Runs -/

/-- A call that changes the mail or the mailboxes of an account. -/
inductive MailboxOp
  | deliver (request : DeliveryRequest)
  | append (request : AppendRequest)
  | update (d : ℕ) (mutate : Mutation)
  | updates (ds : List ℕ) (mutate : ℕ → Mutation)
  | patch (d : ℕ) (fields : List PatchField)
  | delete (d : ℕ)
  | create (name : String) (uidValidity : ℕ)
  | rename (id : ℕ) (newName : String)
  | destroy (id : ℕ) (removeEmails : Bool)

namespace MailboxOp
variable (env : Env) (a : ℕ)

def program : MailboxOp → Action Unit
  | deliver request => (fun _ => ()) <$> Mail.deliver env request
  | append request => (fun _ => ()) <$> appendMessage env request
  | update d mutate => (fun _ => ()) <$> updateMessage a d mutate
  | updates ds mutate => (fun _ => ()) <$> updateMessages a ds mutate
  | patch d fields => (fun _ => ()) <$> applyPatch a d fields
  | delete d => (fun _ => ()) <$> deleteMessage env a d
  | create name uidValidity => (fun _ => ()) <$> createMailbox a name uidValidity
  | rename id newName => (fun _ => ()) <$> renameMailbox a id newName
  | destroy id removeEmails => (fun _ => ()) <$> deleteMailbox env a id removeEmails

def perform (w : World) (op : MailboxOp) : World :=
  ((op.program env a).run (machine env.digest) w).2

/-- The calls that the log of the mailboxes tells of, or that change nothing it should
tell: no message enters or leaves a mailbox, and none becomes seen or unseen. -/
def Harmless : MailboxOp → Prop
  | update _ mutate => ∀ x y, mutate x = .ok y → ∀ id, seenIn id y = seenIn id x
  | updates _ mutate => ∀ d x y, mutate d x = .ok y → ∀ id, seenIn id y = seenIn id x
  | patch _ fields => ∀ field ∈ fields, field = .other ∨ ∃ k on, k ≠ .seen ∧ field = .keyword k on
  | create _ _ => True
  | rename _ _ => True
  | destroy _ _ => True
  | deliver _ => False
  | append _ => False
  | delete _ => False

def patchKeyword (data : MessageData) : PatchField → MessageData
  | .keyword k on => if on then data.addKeyword k else data.removeKeyword k
  | _ => data

theorem seenIn_patchKeyword {field : PatchField} {data : MessageData}
    (h : field = .other ∨ ∃ k on, k ≠ Keyword.seen ∧ field = .keyword k on) (id : ℕ) :
    seenIn id (patchKeyword data field) = seenIn id data := by
  rcases h with rfl | ⟨k, on, hk, rfl⟩
  · rfl
  · have hadd : .seen ∈ (data.addKeyword k).keywords ↔ .seen ∈ data.keywords := by
      unfold MessageData.addKeyword
      split <;> simp [hk.symm]
    have hremove : .seen ∈ (data.removeKeyword k).keywords ↔ .seen ∈ data.keywords := by
      simp [MessageData.removeKeyword, hk.symm]
    have hplaces : (data.addKeyword k).mailboxes = data.mailboxes := by
      unfold MessageData.addKeyword
      split <;> rfl
    unfold seenIn patchKeyword MessageData.inMailbox
    cases on with
    | true => simp only [if_true, hplaces, hadd]
    | false =>
      simp only [Bool.false_eq_true, if_false, hremove]
      rfl

theorem patchData_eq {fields : List PatchField} (data : MessageData)
    (h : ∀ field ∈ fields, field = .other ∨ ∃ k on, k ≠ Keyword.seen ∧ field = .keyword k on) :
    patchData a fields data = .ret (fields.foldl patchKeyword data) ∧
      ∀ id, seenIn id (fields.foldl patchKeyword data) = seenIn id data := by
  induction fields generalizing data with
  | nil => exact ⟨rfl, fun _ => rfl⟩
  | cons field fields ih =>
    obtain ⟨heq, hsame⟩ := ih (patchKeyword data field) fun f hf => h f (mem_cons_of_mem _ hf)
    have hfirst := h field mem_cons_self
    refine ⟨?_, fun id => (hsame id).trans (seenIn_patchKeyword hfirst id)⟩
    rw [foldl_cons, ← heq]
    rcases hfirst with rfl | ⟨k, on, -, rfl⟩ <;> rfl

variable {env a}

theorem accounted_call {op : MailboxOp} (hop : op.Harmless)
    (hemails : 0 ≤ emailCounter w.records a) (hversion : 0 ≤ mailboxVersion w.records a) :
    Accounted a w.records (op.perform env a w).records := by
  unfold perform
  cases op with
  | deliver request => exact hop.elim
  | append request => exact hop.elim
  | delete d => exact hop.elim
  | update d mutate =>
    rw [program, run_map]
    exact (onlyMail_updateMessage env d (fun x y h id _ => hop x y h id) w).accounted
  | updates ds mutate =>
    rw [program, run_map]
    exact (onlyMail_updateMessages env ds (fun d x y h id _ => hop d x y h id) hemails).accounted
  | patch d fields =>
    have hpure : patchData a fields =
        fun data => checked (.ok (fields.foldl patchKeyword data)) :=
      funext fun data => (patchData_eq a data hop).1
    rw [program, run_map, applyPatch, hpure]
    refine (onlyMail_updateMessage env d (fun x y h id _ => ?_) w).accounted
    obtain rfl := Except.ok.inj h
    exact (patchData_eq a x hop).2 id
  | create name uidValidity =>
    rw [program, run_map]
    exact accounted_createMailbox env a w hversion name uidValidity
  | rename id newName =>
    rw [program, run_map]
    exact accounted_renameMailbox env a w hversion id newName
  | destroy id removeEmails =>
    rw [program, run_map]
    exact accounted_deleteMailbox env a w hemails hversion id removeEmails

theorem accounted_calls {ops : List MailboxOp} (hops : ∀ op ∈ ops, op.Harmless)
    (hemails : 0 ≤ emailCounter w.records a) (hversion : 0 ≤ mailboxVersion w.records a) :
    Accounted a w.records (ops.foldl (perform env a) w).records := by
  induction ops generalizing w with
  | nil => exact (OnlyMail.refl a ∅ w.records).accounted
  | cons op ops ih =>
    have hstep : Accounted a w.records (op.perform env a w).records :=
      accounted_call (hops op mem_cons_self) hemails hversion
    exact hstep.trans (ih (fun o ho => hops o (mem_cons_of_mem _ ho))
      (hemails.trans hstep.emails) (hversion.trans hstep.version))

end MailboxOp

/-- In a run of harmless calls, two replies with the same state show the same mailboxes,
and a mailbox that the log does not tell of has the numbers it had. -/
theorem mailbox_state_tracks (env : Env) (a : ℕ) {w w₁ w₂ : World} {before after : List MailboxOp}
    (hemails : 0 ≤ emailCounter w.records a) (hversion : 0 ≤ mailboxVersion w.records a)
    (hbefore : ∀ op ∈ before, op.Harmless) (hafter : ∀ op ∈ after, op.Harmless)
    (hw₁ : before.foldl (MailboxOp.perform env a) w = w₁)
    (hw₂ : after.foldl (MailboxOp.perform env a) w₁ = w₂)
    (args : Value) {callId₁ callId₂ : String} {reply₁ reply₂ : Invocation}
    (hreply₁ : ((mailboxGet a args callId₁).run (machine env.digest) w₁).1 = .ok reply₁)
    (hreply₂ : ((mailboxGet a args callId₂).run (machine env.digest) w₂).1 = .ok reply₂) :
    (reply₁.arguments.get "state" = reply₂.arguments.get "state" →
      reply₁.arguments.get "list" = reply₂.arguments.get "list") ∧
    ∀ (since id : ℕ), reply₁.arguments.get "state" = some (.str (toString since)) →
      (∀ e ∈ ChangeLog.changesOf w₂.records a .mailbox since, e.documentId ≠ id) →
      mailboxCounts (entriesIn w₂.records a) id = mailboxCounts (entriesIn w₁.records a) id := by
  have hfirst : Accounted a w.records w₁.records := by
    rw [← hw₁]
    exact MailboxOp.accounted_calls hbefore hemails hversion
  have hversion₁ := hversion.trans hfirst.version
  have h : Accounted a w₁.records w₂.records := by
    rw [← hw₂]
    exact MailboxOp.accounted_calls hafter (hemails.trans hfirst.emails) hversion₁
  rw [run_mailboxGet] at hreply₁ hreply₂
  obtain rfl := Except.ok.inj hreply₁
  obtain rfl := Except.ok.inj hreply₂
  refine ⟨fun hstate => ?_, fun since id hstate htold => ?_⟩
  · have hnat : (max (mailboxVersion w₁.records a) 0).toNat =
        (max (mailboxVersion w₂.records a) 0).toNat :=
      toString_injective (Value.str.inj (Option.some.inj hstate))
    have hsame : ∀ id, SameMailbox a id w₁.records w₂.records := by
      intro id
      rcases h.told id with hsame | ⟨n, change, hlow, hhigh, -⟩
      · exact hsame
      · omega
    change some (Value.array _) = some (Value.array _)
    rw [mailboxList_same hsame]
  · have hnat : (max (mailboxVersion w₁.records a) 0).toNat = since :=
      toString_injective (Value.str.inj (Option.some.inj hstate))
    rcases h.told id with hsame | ⟨n, change, hlow, -, hchange, hid⟩
    · exact hsame.counts
    · have hmem : ⟨n, change.documentId, change.kind⟩ ∈
          ChangeLog.changesOf w₂.records a .mailbox since :=
        ChangeLog.mem_changesOf.2 ⟨by simp only; omega, hchange⟩
      exact (htold _ hmem hid).elim

/-! ## A delivery between two replies -/

def shownBy (w : World) (key : String) : Option Value :=
  ((mailboxGet 7 .null "0").run (machine Env.plain.digest) w).1.toOption.bind fun reply =>
    reply.arguments.get key

def firstTotal (list : Option Value) : Option ℤ := do
  let mailboxes ← (← list).asArray
  match ← (← mailboxes.head?).get "totalEmails" with
  | .number total => some total
  | _ => none

def withMessage : World :=
  (MailboxOp.deliver (.plain 7 1 [65])).perform .plain 7 (.empty (.new 0) 0)

theorem delivery_keeps_state :
    shownBy (.empty (.new 0) 0) "state" = shownBy withMessage "state" ∧
      shownBy (.empty (.new 0) 0) "list" ≠ shownBy withMessage "list" :=
  ⟨rfl, fun h => absurd (congrArg firstTotal h) (by decide)⟩

def withMailbox : World := [MailboxOp.create "Work" 1].foldl (MailboxOp.perform .plain 7) withMessage

def withNewName : World :=
  [MailboxOp.rename 6 "Home", .patch 1 [.keyword .flagged true]].foldl
    (MailboxOp.perform .plain 7) withMailbox

/-- A mailbox gets a new name and a message a flag: the inbox shows what it showed. -/
theorem counts_withNewName :
    shownBy withMailbox "state" = some (.str (toString 1)) ∧
      mailboxCounts (entriesIn withNewName.records 7) 1 =
        mailboxCounts (entriesIn withMailbox.records 7) 1 := by
  have hbefore : ∀ op ∈ [MailboxOp.create "Work" 1], op.Harmless := by
    simp [MailboxOp.Harmless]
  have hafter : ∀ op ∈ [MailboxOp.rename 6 "Home", .patch 1 [.keyword .flagged true]],
      op.Harmless := by
    simp [MailboxOp.Harmless]
  have hw₁ : [MailboxOp.create "Work" 1].foldl (MailboxOp.perform .plain 7) withMessage =
      withMailbox := rfl
  have htold : ((ChangeLog.changesOf withNewName.records 7 .mailbox 1).all
      fun e => decide (e.documentId ≠ 1)) = true := by
    decide
  obtain ⟨-, htracks⟩ := mailbox_state_tracks .plain 7 (by decide) (by decide) hbefore hafter hw₁ rfl
    .null (congrArg Prod.fst (run_mailboxGet Env.plain.digest 7 .null "0" withMailbox))
    (congrArg Prod.fst (run_mailboxGet Env.plain.digest 7 .null "1" withNewName))
  exact ⟨rfl, htracks 1 1 rfl fun e he => of_decide_eq_true (List.all_eq_true.1 htold e he)⟩

end IrixMail.Jmap
