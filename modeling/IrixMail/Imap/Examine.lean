import IrixMail.Imap.Interleaved
import IrixMail.Imap.Reads
import IrixMail.Mail.Touches

/-!
# Sessions that only look

EXAMINE opens a mailbox for reading, and every command that would change the messages
in it asks the session for that. What is left are commands about mailboxes by name:
COPY enters messages into another mailbox, DELETE of another mailbox takes the messages
that are there as well out of it, and APPEND files new ones.
-/

namespace IrixMail.Imap
open Library Prog Store WriteOp Mail List

variable {d k : ℕ} {E : Trace sig → Prop}

/-! ## What may become of a message -/

/-- The message enters the mailbox `m`; nothing else about it changes. -/
def Gains (m : ℕ) (x y : Option MessageData) : Prop :=
  ∃ old new uid, x = some old ∧ y = some new ∧ old.inMailbox m = false ∧
    new.keywords = old.keywords ∧ new.mailboxes = old.mailboxes ++ [⟨m, uid⟩]

def Loses (m : ℕ) (x y : Option MessageData) : Prop :=
  ∃ old, x = some old ∧ old.inMailbox m = true ∧ match y with
    | some new => new.keywords = old.keywords ∧
        new.mailboxes = old.mailboxes.filter fun e => e.mailboxId != m
    | none => ∀ e ∈ old.mailboxes, e.mailboxId = m

def DrawnId (a : ℕ) (s t : Records) (d : ℕ) : Prop :=
  ∃ r : ℤ, emailCounter s a < r ∧ r ≤ emailCounter t a ∧ d = intAsU32 r

section Messages
variable {m uid : ℕ} {old cur : MessageData}

theorem gains_addMailbox (h : old.inMailbox m = false) (uid : ℕ) :
    Gains m (some old) (some (old.addMailbox m uid)) := by
  have hany : old.mailboxes.any (fun e => e.mailboxId == m) = false := h
  refine ⟨old, _, uid, rfl, rfl, h, ?_⟩
  rw [MessageData.addMailbox, hany]
  exact ⟨rfl, rfl⟩

theorem Gains.addMailbox {x : Option MessageData} (h : Gains m x (some cur)) (uid : ℕ) :
    cur.addMailbox m uid = cur := by
  obtain ⟨old, new, uid', -, hnew, -, -, hmailboxes⟩ := h
  obtain rfl := Option.some.inj hnew
  rw [MessageData.addMailbox, hmailboxes, if_pos (by simp)]

theorem loses_removeMailbox (h : old.inMailbox m = true) :
    Loses m (some old) (some (old.removeMailbox m)) := ⟨old, rfl, h, rfl, rfl⟩

theorem Loses.removeMailbox {x : Option MessageData} (h : Loses m x (some cur)) :
    Loses m x (some (cur.removeMailbox m)) := by
  obtain ⟨old, hx, hin, hkeywords, hmailboxes⟩ := h
  refine ⟨old, hx, hin, hkeywords, ?_⟩
  rw [MessageData.removeMailbox, hmailboxes]
  simp

theorem loses_none (h : old.inMailbox m = true) (hlength : old.mailboxes.length ≤ 1) :
    Loses m (some old) none := by
  refine ⟨old, rfl, h, fun e he => ?_⟩
  obtain ⟨e', he', heq⟩ := any_eq_true.1 h
  obtain ⟨x, hx⟩ : ∃ x, old.mailboxes = [x] :=
    length_eq_one_iff.1 (le_antisymm hlength (length_pos_of_mem he))
  rw [hx, mem_singleton] at he he'
  rw [he, ← he']
  simpa using heq

theorem inMailbox_of_uidAmong {entries : List MailboxUid} (h : uidAmong entries m = none) :
    entries.any (fun e => e.mailboxId == m) = false := by
  rw [uidAmong, Option.map_eq_none_iff, find?_eq_none] at h
  rw [any_eq_false]
  exact h

end Messages

/-! ## COPY -/

section Copies
variable (env : Env) {a m : ℕ} {s : Records}

def Cached (a : ℕ) (s : Records) (entry : MessageCacheEntry) : Prop :=
  ∃ data, s.lookup (.data a entry.documentId) = some data ∧ data.mailboxes = entry.mailboxes

theorem cached_of_mem {x : Numbered} (hx : x ∈ numbered (membersIn k (s.iterate (messagePrefix a))))
    : Cached a s x.entry := by
  obtain ⟨b, data, hrow, hentry, -⟩ := row_of_numbered hx
  obtain ⟨data, -, hdata⟩ := row_of_cachedEntry hrow (congrArg some hentry.symm)
  exact ⟨data, hdata⟩

theorem revises_copyOne (sourceId : ℕ) {entry : MessageCacheEntry} (hentry : Cached a s entry) :
    Revises env a (fun _ => Gains m) s (Session.copyOne a sourceId m false entry) := by
  obtain ⟨old, hold, hmailboxes⟩ := hentry
  unfold Session.copyOne
  split
  next => exact revises_ret _
  next hfound =>
    have hout : old.inMailbox m = false := by
      refine inMailbox_of_uidAmong ?_
      rw [hmailboxes]
      exact hfound
    have hdraw : LeadsTo Quiet Idle (nextUidIn a m) := leadsTo_exec rfl fun _ => leadsTo_pure _
    refine (revises_quiet hdraw).bind fun uid => ?_
    refine (revises_updateMessage entry.documentId ?_).bind fun _ => revises_ret _
    rintro cur new ⟨⟩ hcur
    rw [hold] at hcur ⊢
    rcases hcur with hsame | hgains
    · obtain rfl := Option.some.inj hsame
      exact gains_addMailbox hout uid
    · rw [hgains.addMailbox]
      exact hgains

theorem revises_copyEach (sourceId : ℕ) {xs : List Numbered}
    (hxs : ∀ x ∈ xs, Cached a s x.entry) :
    Revises env a (fun _ => Gains m) s (Session.copyEach a sourceId m false xs) := by
  induction xs with
  | nil => exact revises_ret _
  | cons x xs ih =>
    refine (revises_copyOne env sourceId (hxs x mem_cons_self)).bind fun uid => ?_
    exact (ih fun y hy => hxs y (mem_cons_of_mem x hy)).bind fun _ => revises_ret _

end Copies

/-! ## DELETE -/

section Deletes
variable (env : Env) {a m : ℕ} {s : Records}

theorem revises_leaveMailbox {entry : MessageCacheEntry} (hentry : Cached a s entry)
    (hin : entry.inMailbox m) :
    Revises env a (fun _ => Loses m) s
      (leaveMailbox env a m entry.documentId entry.mailboxes.length id) := by
  obtain ⟨old, hold, hmailboxes⟩ := hentry
  have hin' : old.inMailbox m = true := by
    rw [MessageData.inMailbox, hmailboxes]
    exact hin
  unfold leaveMailbox
  split
  next hlast =>
    rw [← hmailboxes] at hlast
    refine Ensures.bind (revises_deleteMessage entry.documentId ?_) fun _ => revises_ret _
    rw [hold]
    exact loses_none hin' hlast
  next =>
    refine Ensures.bind (revises_updateMessage entry.documentId ?_) fun _ => revises_ret _
    rintro cur new ⟨⟩ hcur
    rw [hold] at hcur ⊢
    rcases hcur with hsame | hloses
    · obtain rfl := Option.some.inj hsame
      exact loses_removeMailbox hin'
    · exact hloses.removeMailbox

theorem revises_removeMembers {entries : List MessageCacheEntry}
    (hentries : ∀ entry ∈ entries, Cached a s entry ∧ entry.inMailbox m) :
    Revises env a (fun _ => Loses m) s (removeMembers env a m entries) := by
  induction entries with
  | nil => exact revises_ret _
  | cons entry entries ih =>
    obtain ⟨hcached, hin⟩ := hentries entry mem_cons_self
    refine (revises_leaveMailbox env hcached hin).bind fun _ => ?_
    exact ih fun x hx => hentries x (mem_cons_of_mem entry hx)

theorem revised_deleteMailbox (w : World) :
    Revised a (fun _ => Loses m) w.records
      ((deleteMailbox env a m true).run (machine env.digest) w).2.records := by
  let entries := (w.records.iterate (messagePrefix a)).filterMap MessageStoreCache.cachedEntry
  let members := entries.filter fun entry => entry.inMailbox m
  have hrun : (deleteMailbox env a m true).run (machine env.digest) w =
      (removeMembers env a m members >>= fun _ => do
        let record ← ChangeLog.recordOp a .mailbox m .delete
        exec (.batch [.delete (.mailbox a m), record.2])
        pure .deleted : Action MailboxDelete).run (machine env.digest) w := rfl
  have hmembers : ∀ entry ∈ members, Cached a w.records entry ∧ entry.inMailbox m := by
    intro entry hentry
    obtain ⟨hmem, hin⟩ := mem_filter.1 hentry
    obtain ⟨row, hrow, hcached⟩ := mem_filterMap.1 hmem
    obtain ⟨data, -, hdata⟩ := row_of_cachedEntry hrow hcached
    exact ⟨⟨data, hdata⟩, hin⟩
  rw [hrun]
  refine Ensures.run ((revises_removeMembers env hmembers).bind fun _ => ?_) (Revised.refl _)
  have haside : Obeys Aside (fun _ => True) (fun _ _ => True) [] (do
      let record ← ChangeLog.recordOp a .mailbox m .delete
      exec (.batch [.delete (.mailbox a m), record.2])
      pure .deleted : Action MailboxDelete) := aside_recordMailbox id (fun _ => trivial) []
  exact revises_aside haside

end Deletes

/-! ## APPEND -/

section Appends
variable (env : Env) {a : ℕ} {s t u : Records}

/-- Only messages under newly drawn ids were touched. -/
structure Filed (a : ℕ) (s t : Records) : Prop where
  counter_le : emailCounter s a ≤ emailCounter t a
  revised : Revised a (fun d _ _ => DrawnId a s t d) s t

theorem DrawnId.mono (h : DrawnId a s t d) (hle : emailCounter t a ≤ emailCounter u a) :
    DrawnId a s u d := by
  obtain ⟨r, hlow, hhigh, hd⟩ := h
  exact ⟨r, hlow, hhigh.trans hle, hd⟩

theorem Filed.trans_calm (h : Filed a s t) (h' : Calm t u) : Filed a s u := by
  have hle : emailCounter t a ≤ emailCounter u a := h'.number a .email 0
  exact ⟨h.counter_le.trans hle, (h.revised.trans_calm h').mono fun d _ _ hd => hd.mono hle⟩

theorem Filed.touch {new : Option MessageData} (h : Filed a s t) (hd : DrawnId a s t d)
    (h' : Touches a d new t u) : Filed a s u := by
  refine ⟨h.counter_le.trans h'.counter, Revised.touch ?_ h' (hd.mono h'.counter)⟩
  exact h.revised.mono fun e _ _ he => he.mono h'.counter

theorem ensures_allocateDocumentId :
    Ensures (machine env.digest) (fun w => Filed a s w.records)
      (fun d w => Filed a s w.records ∧ DrawnId a s w.records d) (fun w => Filed a s w.records)
      (allocateDocumentId a) := by
  intro w hw
  have hnext : emailCounter ((WriteOp.add (.number a .email 0) 1).apply w.records) a =
      emailCounter w.records a + 1 := by
    unfold emailCounter
    rw [WriteOp.counter_apply (WriteOp.additive_add _ _), WriteOp.amountAt, if_pos rfl]
  refine ⟨hw.trans_calm (calm_draw w.records a .email 0), emailCounter w.records a + 1, ?_, ?_, rfl⟩
  · have := hw.counter_le
    omega
  · exact hnext.ge

theorem ensures_appendOne (session : Session) (mailbox : Mailbox)
    (group : Session.AppendGroup) :
    Ensures (machine env.digest) (fun w => Filed session.accountId s w.records)
      (fun _ w => Filed session.accountId s w.records)
      (fun w => Filed session.accountId s w.records) (session.appendOne env mailbox group) := by
  refine (ensures_allocateDocumentId env).bind fun d => ?_
  have hfile : ∀ receivedAt, Ensures (machine env.digest)
      (fun w => Filed session.accountId s w.records ∧ DrawnId session.accountId s w.records d)
      (fun _ w => Filed session.accountId s w.records)
      (fun w => Filed session.accountId s w.records) (do
        let outcome ← appendMessage env
          ⟨session.account, mailbox, group.flags, receivedAt, d, group.message⟩
        pure (if outcome.overQuota then none else some outcome.uid)) := by
    intro receivedAt
    refine Ensures.bind (.of_run fun w hw => ?_) fun outcome => .ret fun _ h => h
    rcases touches_appendMessage env
      ⟨session.account, mailbox, group.flags, receivedAt, d, group.message⟩ w with hcalm | ⟨data, h⟩
    · exact hw.1.trans_calm hcalm
    · exact hw.1.touch hw.2 h
  cases group.internalDate with
  | some date => exact hfile date
  | none =>
    refine Ensures.bind (p := exec .now) ?_ hfile
    exact fun _ h => h

theorem ensures_appendEach (session : Session) (mailbox : Mailbox)
    (groups : List Session.AppendGroup) :
    Ensures (machine env.digest) (fun w => Filed session.accountId s w.records)
      (fun _ w => Filed session.accountId s w.records)
      (fun w => Filed session.accountId s w.records) (session.appendEach env mailbox groups) := by
  induction groups with
  | nil => exact .ret fun _ h => h
  | cons group groups ih =>
    refine (ensures_appendOne env session mailbox group).bind fun uid => ?_
    cases uid with
    | none => exact .ret fun _ h => h
    | some uid => exact ih.bind fun _ => .ret fun _ h => h

end Appends

/-! ## Commands -/

/-- What a command may do to a message while the mailbox `k` is examined: APPEND files it,
COPY enters it into a mailbox, and DELETE takes it out of another one. -/
def Command.Allows (a k : ℕ) (s t : Records) (d : ℕ) (x y : Option MessageData) : Command → Prop
  | .append _ _ => DrawnId a s t d
  | .copy _ _ _ false => ∃ m, Gains m x y
  | .delete _ => ∃ m ≠ k, Loses m x y
  | _ => False

namespace Session
variable (env : Env) (s : Session) (w : World)

variable (name : String)

theorem run_mailboxNamed : (s.mailboxNamed name).run (machine env.digest) w =
    (.ok (s.mailboxIn name (w.records.iterate (mailboxPrefix s.accountId))), w) := rfl

theorem run_members (k : ℕ) : (s.members k).run (machine env.digest) w =
    (.ok (membersIn k (w.records.iterate (messagePrefix s.accountId))), w) := rfl

def selectedIn (rows : List (Sigma Val)) : Option Mailbox := s.mailbox.bind (s.mailboxIn · rows)

theorem run_inSelected {α : Type} (otherwise : α) (f : Mailbox → Action α) :
    (s.inSelected otherwise f).run (machine env.digest) w =
      match s.selectedIn (w.records.iterate (mailboxPrefix s.accountId)) with
      | none => (.ok otherwise, w)
      | some mailbox => (f mailbox).run (machine env.digest) w := by
  unfold inSelected selectedIn
  cases s.mailbox with
  | none => rfl
  | some name =>
    rw [run_bind, run_mailboxNamed, Option.bind_some]
    cases s.mailboxIn name (w.records.iterate (mailboxPrefix s.accountId)) <;> rfl

theorem revised_copyApply (ranges : List SeqRange) (target : Mailbox) (uidMode : Bool) :
    Revised s.accountId (fun _ => Gains target.id) w.records
      ((s.copyApply ranges target uidMode false).run (machine env.digest) w).2.records := by
  unfold copyApply
  rw [run_inSelected]
  split
  next => exact .refl _
  next source _ =>
    rw [run_bind, run_members]
    refine Ensures.run ((revises_copyEach env source.id fun x hx => ?_).bind fun _ =>
      revises_ret _) (Revised.refl _)
    exact cached_of_mem (mem_filter.1 hx).1

theorem revised_runCopy (ranges : List SeqRange) (target : String) (uidMode : Bool) :
    Revised s.accountId (fun _ x y => ∃ m, Gains m x y) w.records
      ((s.runCopy ranges target uidMode false).run (machine env.digest) w).2.records := by
  unfold runCopy
  rw [run_bind, run_mailboxNamed]
  dsimp only
  split
  next => exact .refl _
  next target _ =>
    have hselected : ∃ source, s.selectedId.run (machine env.digest) w = (.ok source, w) := by
      rw [selectedId, run_inSelected]
      split <;> exact ⟨_, rfl⟩
    obtain ⟨source, hsource⟩ := hselected
    rw [run_bind, hsource]
    dsimp only
    split
    · exact .refl _
    · simp only [Bool.false_eq_true, if_false, run_bind_ret]
      exact (s.revised_copyApply env w ranges target uidMode).mono fun _ _ _ h => ⟨_, h⟩

theorem revised_runDelete
    (hk : ∀ mailbox, s.mailboxIn name (w.records.iterate (mailboxPrefix s.accountId)) = some mailbox →
      mailbox.id ≠ k)
    :
    Revised s.accountId (fun _ x y => ∃ m ≠ k, Loses m x y) w.records
      ((s.runDelete env name).run (machine env.digest) w).2.records := by
  unfold runDelete
  rw [run_bind, run_mailboxNamed]
  dsimp only
  split
  next => exact .refl _
  next mailbox hfound =>
    split
    · exact .refl _
    · rw [run_bind_ret]
      exact (revised_deleteMailbox env w).mono fun _ _ _ h => ⟨_, hk mailbox hfound, h⟩

theorem filed_runAppend (groups : List AppendGroup) :
    Filed s.accountId w.records
      ((s.runAppend env name groups).run (machine env.digest) w).2.records := by
  have hstart : Filed s.accountId w.records w.records := ⟨le_rfl, .refl _⟩
  unfold runAppend
  rw [run_bind, run_mailboxNamed]
  dsimp only
  split
  next => exact hstart
  next mailbox _ =>
    refine Ensures.run ((ensures_appendEach env s mailbox groups).bind fun uids => ?_) hstart
    cases uids <;> exact .ret fun _ h => h

theorem aside_mailboxNamed (t : Trace sig) :
    Obeys Aside E (fun _ _ => True) t (s.mailboxNamed name) :=
  (s.obeys_mailboxNamed (fun _ _ => aside_of_quiet) name t).mono fun _ _ _ => trivial

theorem aside_runCreate (t : Trace sig) : Obeys Aside E (fun _ _ => True) t (s.runCreate name) := by
  unfold runCreate
  split
  · exact .ret trivial
  · refine (s.aside_mailboxNamed name t).bind fun u found _ => ?_
    cases found with
    | some mailbox => exact .ret trivial
    | none => exact (aside_createMailbox _ _ _ u).bind fun _ _ _ => .ret trivial

theorem aside_runRename (source target : String) (t : Trace sig) :
    Obeys Aside E (fun _ _ => True) t (s.runRename source target) := by
  refine (s.aside_mailboxNamed source t).bind fun u found _ => ?_
  cases found with
  | none => exact .ret trivial
  | some mailbox =>
    dsimp only
    split
    · exact .ret trivial
    split
    · exact .ret trivial
    · refine (s.aside_mailboxNamed target u).bind fun v found _ => ?_
      cases found with
      | some mailbox => exact .ret trivial
      | none => exact (aside_renameMailbox _ _ _ v).bind fun _ _ _ => .ret trivial

/-! ## FETCH -/

theorem leadsTo_fetchEach (items : List FetchItem) (uidMode : Bool)
    (modseqs : Option (List ChangeLogEntry)) (changedFloor : Option ℕ) (xs : List Numbered) :
    LeadsTo Quiet Idle (s.fetchEach items uidMode false modseqs changedFloor xs) := by
  induction xs with
  | nil => exact leadsTo_pure _
  | cons x xs ih =>
    refine leadsTo_bind ?_ fun _ => leadsTo_bind ih fun _ => leadsTo_pure _
    unfold fetchOne
    simp only [Bool.false_and]
    split <;> exact leadsTo_pure _

theorem leadsTo_runFetch (hreadOnly : s.readOnly = true) (ranges : List SeqRange)
    (items : List FetchItem) (uidMode : Bool) (mods : Option FetchMods) :
    LeadsTo Quiet Idle (s.runFetch ranges items uidMode mods) := by
  unfold runFetch
  split
  · exact leadsTo_pure _
  · refine leadsTo_bind (leadsTo_inSelected _ _ fun mailbox => ?_) fun _ => leadsTo_pure _
    simp only [hreadOnly]
    refine leadsTo_bind (leadsTo_members _ _) fun members => ?_
    refine leadsTo_bind (leadsTo_modseqsFor _ _) fun modseqs => ?_
    refine leadsTo_bind (leadsTo_changedFloorOf _ _) fun changedFloor => ?_
    refine leadsTo_bind (leadsTo_fetchVanished _ _ _ _ _) fun vanished => ?_
    exact leadsTo_bind (leadsTo_fetchEach _ _ _ _ _ _) fun _ => leadsTo_pure _

/-! ## A command while the mailbox is examined -/

variable {s} in
theorem whenSelected_eq (h : s.state = .selected) (p : Action (List Line × Session)) :
    s.whenSelected p = p := if_neg (by simp [h])

variable {s} in
theorem whenWritable_eq (h : s.state = .selected) (hreadOnly : s.readOnly = true)
    (p : Action (List Line × Session)) : s.whenWritable p = pure ([readOnlyRefusal], s) := by
  rw [whenWritable, whenSelected_eq h, if_pos hreadOnly]

theorem revised_dispatch (hselected : s.state = .selected) (hreadOnly : s.readOnly = true)
    (c : Command)
    (hk : ∀ name, c = .delete name → ∀ mailbox, s.mailboxIn name
      (w.records.iterate (mailboxPrefix s.accountId)) = some mailbox → mailbox.id ≠ k)
    :
    Revised s.accountId (fun d x y => c.Allows s.accountId k w.records
        ((s.dispatch env c).run (machine env.digest) w).2.records d x y) w.records
      ((s.dispatch env c).run (machine env.digest) w).2.records := by
  have hselects := whenSelected_eq hselected
  have hquiet : ∀ {may : ℕ → Option MessageData → Option MessageData → Prop}
      {p : Action (List Line × Session)}, LeadsTo Quiet Idle p →
      Revised s.accountId may w.records (p.run (machine env.digest) w).2.records :=
    fun h => (revises_quiet h).run (Revised.refl _)
  have hopen : ∀ {p : Action (List Line × Session)}, LeadsTo Quiet Idle p →
      LeadsTo Quiet Idle (s.whenSelected p) := fun h => (hselects _).symm ▸ h
  have hrefused : ∀ p, LeadsTo Quiet Idle (s.whenWritable p) :=
    fun p => (whenWritable_eq hselected hreadOnly p).symm ▸ leadsTo_pure _
  have hkeep : ∀ p : Action (List Line), ((s.keep p).run (machine env.digest) w).2 =
      (p.run (machine env.digest) w).2 := fun p => run_bind_ret _ _ _ _
  have haside : ∀ {may : ℕ → Option MessageData → Option MessageData → Prop}
      {p : Action (List Line)}, Obeys Aside (fun _ => True) (fun _ _ => True) [] p →
      Revised s.accountId may w.records ((s.keep p).run (machine env.digest) w).2.records := by
    intro may p h
    rw [hkeep]
    exact (revises_aside h).run (Revised.refl _)
  cases c with
  | noop => exact hquiet (leadsTo_bind s.leadsTo_pushNewMail fun _ => leadsTo_pure _)
  | check => exact hquiet (hopen (leadsTo_bind s.leadsTo_pushNewMail fun _ => leadsTo_pure _))
  | enable condstore qresync => exact hquiet (leadsTo_pure _)
  | select name params examine => exact hquiet (s.leadsTo_runSelect name params examine)
  | create name => exact haside (s.aside_runCreate name [])
  | delete name =>
    have h := s.revised_runDelete env w name (hk name rfl)
    rw [← hkeep] at h
    exact h
  | rename source target => exact haside (s.aside_runRename source target [])
  | append name groups =>
    have h := s.filed_runAppend env w name groups
    rw [← hkeep] at h
    exact h.revised
  | fetch ranges items uidMode mods =>
    exact hquiet (hopen (s.leadsTo_runFetch hreadOnly ranges items uidMode mods))
  | store ranges op uidMode unchangedSince => exact hquiet (hrefused _)
  | copy ranges target uidMode moveMode =>
    cases moveMode with
    | false =>
      have hdispatch : s.dispatch env (.copy ranges target uidMode false) =
          s.keep (s.runCopy ranges target uidMode false) := hselects _
      have h := s.revised_runCopy env w ranges target uidMode
      rw [← hkeep, ← hdispatch] at h
      exact h
    | true => exact hquiet (hrefused _)
  | expunge ranges => exact hquiet (hrefused _)
  | close => exact hquiet (hopen (if_pos hreadOnly ▸ leadsTo_pure _))
  | unselect => exact hquiet (hopen (leadsTo_pure _))
  | side command => exact (revises_aside (command.aside s)).run (Revised.refl _)

end Session

/-! ## Sessions -/

def completes (lines : List Line) : Bool :=
  match lines.getLast? with
  | some (.tagged .ok _ _) => true
  | _ => false

def Command.Reselects (lines : List Line) : Command → Prop
  | .select _ _ _ => completes lines = true
  | .close => True
  | .unselect => True
  | _ => False

/-- The session has the mailbox `k` open by EXAMINE: it has opened it, and commands have
followed that left it open. Between them anything may happen to the store. -/
inductive Examining (env : Env) (k : ℕ) : Session → Prop
  | opened {s s' : Session} {w : World} {name : String} {params : SelectParams}
      {mailbox : Mailbox} {lines : List Line} :
      ((s.mailboxNamed name).run (machine env.digest) w).1 = .ok (some mailbox) → mailbox.id = k →
      ((s.dispatch env (.select name params true)).run (machine env.digest) w).1 = .ok (lines, s') →
      completes lines = true → Examining env k s'
  | next {s s' : Session} {w : World} {c : Command} {lines : List Line} : Examining env k s →
      ((s.dispatch env c).run (machine env.digest) w).1 = .ok (lines, s') →
      ¬ c.Reselects lines → Examining env k s'

namespace Session
variable (env : Env) (s : Session)

theorem returns_runSelect (name : String) (params : SelectParams) (examine : Bool) :
    Returns (fun r => (r.2 = s ∧ completes r.1 = false) ∨
      r.2.state = .selected ∧ r.2.readOnly = examine ∧ completes r.1 = true)
      (s.runSelect name params examine) := by
  refine (Returns.any _).bind fun found _ => ?_
  cases found with
  | none => exact .ret (.inl ⟨rfl, rfl⟩)
  | some mailbox =>
    dsimp only
    split
    · exact .ret (.inl ⟨rfl, rfl⟩)
    · have hcompletes : ∀ lines : List Line, completes (lines ++
          [if examine then .tagged .ok (some .readOnly) "EXAMINE completed"
            else .tagged .ok (some .readWrite) "SELECT completed"]) = true := by
        intro lines
        unfold completes
        rw [getLast?_concat]
        cases examine <;> rfl
      refine (Returns.any _).bind fun view _ => ?_
      cases params.qresync with
      | none => exact .ret (.inr ⟨rfl, rfl, hcompletes _⟩)
      | some qresync =>
        exact (Returns.any _).bind fun replay _ => .ret (.inr ⟨rfl, rfl, hcompletes _⟩)

theorem returns_pushNewMail : Returns (fun r => r.2.state = s.state ∧ r.2.readOnly = s.readOnly)
    s.pushNewMail := by
  unfold pushNewMail
  split
  · exact .ret ⟨rfl, rfl⟩
  · unfold inSelected
    split
    · exact .ret ⟨rfl, rfl⟩
    · refine (Returns.any _).bind fun found _ => ?_
      cases found with
      | none => exact .ret ⟨rfl, rfl⟩
      | some mailbox =>
        refine (Returns.any _).bind fun view _ => ?_
        split <;> exact .ret ⟨rfl, rfl⟩

theorem returns_runFetch (ranges : List SeqRange) (items : List FetchItem) (uidMode : Bool)
    (mods : Option FetchMods) :
    Returns (fun r => r.2.state = s.state ∧ r.2.readOnly = s.readOnly)
      (s.runFetch ranges items uidMode mods) := by
  unfold runFetch
  split
  · exact .ret ⟨rfl, rfl⟩
  · exact (Returns.any _).bind fun _ _ => .ret ⟨rfl, rfl⟩

theorem returns_keep (p : Action (List Line)) : Returns (fun r => r.2 = s) (s.keep p) :=
  (Returns.any _).bind fun _ _ => .ret rfl

def Open (c : Command) (r : List Line × Session) : Prop :=
  c.Reselects r.1 ∨ r.2.state = .selected ∧ r.2.readOnly = true

theorem returns_dispatch (hselected : s.state = .selected) (hreadOnly : s.readOnly = true)
    (c : Command) : Returns (Open c) (s.dispatch env c) := by
  have hmoved : ∀ {p : Action (List Line × Session)},
      Returns (fun r => r.2.state = s.state ∧ r.2.readOnly = s.readOnly) p →
      Returns (Open c) p :=
    fun h => h.mono fun r hr => .inr ⟨hr.1.trans hselected, hr.2.trans hreadOnly⟩
  have hsame : ∀ p, Returns (Open c) (s.keep p) :=
    fun p => hmoved ((s.returns_keep p).mono fun r hr => ⟨congrArg _ hr, congrArg _ hr⟩)
  have hopen : ∀ {p}, Returns (Open c) p → Returns (Open c) (s.whenSelected p) :=
    fun h => (whenSelected_eq hselected _).symm ▸ h
  have hrefused : ∀ p, Returns (Open c) (s.whenWritable p) :=
    fun p => (whenWritable_eq hselected hreadOnly p).symm ▸ .ret (.inr ⟨hselected, hreadOnly⟩)
  cases c with
  | noop => exact hmoved (s.returns_pushNewMail.bind fun _ h => .ret h)
  | check => exact hopen (hmoved (s.returns_pushNewMail.bind fun _ h => .ret h))
  | enable condstore qresync => exact .ret (.inr ⟨hselected, hreadOnly⟩)
  | select name params examine =>
    refine (s.returns_runSelect name params examine).mono ?_
    rintro ⟨lines, _⟩ (⟨rfl, -⟩ | ⟨-, -, hcompletes⟩)
    · exact .inr ⟨hselected, hreadOnly⟩
    · exact .inl hcompletes
  | create name => exact hsame _
  | delete name => exact hsame _
  | rename source target => exact hsame _
  | append name groups => exact hsame _
  | fetch ranges items uidMode mods =>
    exact hopen (hmoved (s.returns_runFetch ranges items uidMode mods))
  | store ranges op uidMode unchangedSince => exact hrefused _
  | copy ranges target uidMode moveMode =>
    cases moveMode with
    | false => exact hopen (hsame _)
    | true => exact hrefused _
  | expunge ranges => exact hrefused _
  | close => exact (Returns.any _).mono fun _ _ => .inl trivial
  | unselect => exact (Returns.any _).mono fun _ _ => .inl trivial
  | side command => exact hmoved (command.stays s)

end Session

theorem Examining.readOnly {env : Env} {s : Session} (h : Examining env k s) :
    s.state = .selected ∧ s.readOnly = true := by
  induction h with
  | @opened s s' w name params mailbox lines _ _ hrun hcompletes =>
    have hreturns := s.returns_runSelect name params true _ _
      (hrun ▸ exec_replies (machine env.digest) (s.runSelect name params true) w)
    rcases hreturns with ⟨-, hfails⟩ | ⟨hstate, hreadOnly, -⟩
    · exact absurd hcompletes (by simp [hfails])
    · exact ⟨hstate, hreadOnly⟩
  | @next s s' w c lines _ hrun hstays ih =>
    have hreturns := s.returns_dispatch env ih.1 ih.2 c _ _
      (hrun ▸ exec_replies (machine env.digest) (s.dispatch env c) w)
    exact hreturns.resolve_left hstays

/-! ## The mailbox stays as it is -/

def Files (c : Command) (a : ℕ) (s t : Records) (d : ℕ) : Prop :=
  (∃ name groups, c = .append name groups) ∧ DrawnId a s t d

/-- The command keeps the flags of every message and all messages in the mailbox `k`, and
it writes entries of the log only for messages that it files, or that enter or leave
another mailbox. -/
structure Unmodified (c : Command) (a k : ℕ) (s t : Records) : Prop where
  flags : ∀ b d old new, s.lookup (.data b d) = some old → t.lookup (.data b d) = some new →
    new.keywords = old.keywords ∨ b = a ∧ Files c a s t d
  stays : ∀ d old, s.lookup (.data a d) = some old → ∀ e ∈ old.mailboxes, e.mailboxId = k →
    (∃ new, t.lookup (.data a d) = some new ∧ e ∈ new.mailboxes) ∨ Files c a s t d
  log : ∀ b n, t.lookup (.change b .email n) = s.lookup (.change b .email n) ∨
    b = a ∧ ∃ d kind, t.lookup (.change a .email n) = some ⟨d, kind⟩ ∧
      c.Allows a k s t d (s.lookup (.data a d)) (t.lookup (.data a d))

theorem Command.Allows.kept {c : Command} {a : ℕ} {s t : Records} {old : MessageData}
    {y : Option MessageData} (h : c.Allows a k s t d (some old) y) :
    Files c a s t d ∨ (∀ new, y = some new → new.keywords = old.keywords) ∧
      ∀ e ∈ old.mailboxes, e.mailboxId = k → ∃ new, y = some new ∧ e ∈ new.mailboxes := by
  cases c with
  | append name groups => exact .inl ⟨⟨name, groups, rfl⟩, h⟩
  | copy ranges target uidMode moveMode =>
    cases moveMode with
    | true => exact h.elim
    | false =>
      obtain ⟨m, x, new, uid, hx, rfl, -, hkeywords, hmailboxes⟩ := h
      obtain rfl := Option.some.inj hx
      refine .inr ⟨fun y hy => Option.some.inj hy ▸ hkeywords, fun e he _ => ⟨new, rfl, ?_⟩⟩
      rw [hmailboxes]
      exact mem_append_left _ he
  | delete name =>
    obtain ⟨m, hm, x, hx, -, hy⟩ := h
    obtain rfl := Option.some.inj hx
    cases y with
    | none => exact .inr ⟨nofun, fun e he hk => absurd ((hy e he).symm.trans hk) hm⟩
    | some new =>
      obtain ⟨hkeywords, hmailboxes⟩ := hy
      refine .inr ⟨fun y hy => Option.some.inj hy ▸ hkeywords, fun e he hk => ⟨new, rfl, ?_⟩⟩
      rw [hmailboxes, mem_filter]
      exact ⟨he, by simpa [hk] using hm.symm⟩
  | _ => exact h.elim

theorem examining_unmodified (env : Env) {k : ℕ} {s : Session} (h : Examining env k s)
    (c : Command) (w : World) (hk : ∀ name, c = .delete name → ∀ mailbox,
      ((s.mailboxNamed name).run (machine env.digest) w).1 = .ok (some mailbox) → mailbox.id ≠ k) :
    Unmodified c s.accountId k w.records
      ((s.dispatch env c).run (machine env.digest) w).2.records := by
  obtain ⟨hselected, hreadOnly⟩ := h.readOnly
  have hrevised := s.revised_dispatch env w hselected hreadOnly c fun name hc mailbox hfound =>
    hk name hc mailbox (congrArg Except.ok hfound)
  refine ⟨fun b d old new hold hnew => ?_, fun d old hold e he hek => ?_, hrevised.change⟩
  · rcases hrevised.data b d with hsame | ⟨rfl, hallows⟩
    · rw [hnew, hold] at hsame
      exact .inl (congrArg MessageData.keywords (Option.some.inj hsame))
    · rw [hold] at hallows
      rcases hallows.kept with hfiles | ⟨hflags, -⟩
      · exact .inr ⟨rfl, hfiles⟩
      · exact .inl (hflags new hnew)
  · rcases hrevised.data _ d with hsame | ⟨-, hallows⟩
    · exact .inl ⟨old, hsame.trans hold, he⟩
    · rw [hold] at hallows
      rcases hallows.kept with hfiles | ⟨-, hstays⟩
      · exact .inr hfiles
      · exact .inl (hstays e he hek)

/-! ## A mailbox of the user -/

def listsWorld : World :=
  { World.empty (.new 0) 0 with
    records := (∅ : Records).batch
      [.set (.mailbox 7 6) ⟨6, "Lists", .none, 0⟩,
        .set (.data 7 1) ((MessageData.new 1 1).addMailbox 6 1), .add (.number 7 .email 0) 1] }

def listsSession : Session :=
  { account := .plain 7 "a", state := .selected, mailbox := some "Lists", lastExists := some 1
    readOnly := true }

theorem examining_listsSession : Examining .plain 6 listsSession :=
  @Examining.opened _ _ { account := .plain 7 "a" } _ listsWorld "Lists" {} ⟨6, "Lists", .none, 0⟩
    _ rfl rfl rfl rfl

theorem listsSession_fetch :
    (listsWorld.records.lookup (.data 7 1)).map MessageData.keywords = some [] ∧
    ∀ new, ((listsSession.dispatch .plain (.fetch [⟨.num 1, .num 1⟩] [.other "BODY[]" true] false
      none)).run (machine id) listsWorld).2.records.lookup (.data 7 1) = some new →
        new.keywords = [] := by
  have hunmodified := examining_unmodified .plain examining_listsSession
    (.fetch [⟨.num 1, .num 1⟩] [.other "BODY[]" true] false none) listsWorld nofun
  refine ⟨by decide +kernel, fun new hnew => ?_⟩
  rcases hunmodified.flags 7 1 ((MessageData.new 1 1).addMailbox 6 1) new rfl hnew with
    hflags | ⟨-, ⟨_, _, hc⟩, -⟩
  · exact hflags
  · cases hc

theorem listsSession_delete :
    Examining .plain 6 listsSession ∧
      (listsWorld.records.lookup (.data 7 1)).map MessageData.mailboxes = some [⟨6, 1⟩] ∧
      ((listsSession.dispatch .plain (.delete "Lists")).run (machine id)
        listsWorld).2.records.lookup (.data 7 1) = none ∧
      ∃ n, listsWorld.records.lookup (.change 7 .email n) = none ∧
        ((listsSession.dispatch .plain (.delete "Lists")).run (machine id)
          listsWorld).2.records.lookup (.change 7 .email n) = some ⟨1, .delete⟩ :=
  ⟨examining_listsSession, by decide +kernel, by decide +kernel, 3, by decide +kernel,
    by decide +kernel⟩

end IrixMail.Imap
