import IrixMail.Imap.Interleaved
import IrixMail.Imap.UidOrder

/-!
# A copy beside an expunge

COPY and MOVE tell the client under which UIDs the messages are in the target. EXPUNGE
takes a message out of its mailbox, and destroys it when that is its last one. Both decide
on the list of messages that they read first and write plain batches later. As long as
what a command has read of a message still holds when it comes back to it, a message
stays in the target once it is there.
-/

namespace IrixMail.Imap
open Library Prog Store WriteOp Mail List

/-! ## What the two commands write -/

section Departs
variable (a k : ℕ)

/-- The commands of a thread that takes messages out of mailbox `k`, after its trace. A
message that is destroyed was seen in that mailbox and in no other. -/
inductive Departs (t : Trace sig) : Cmd → Prop
  | quiet {c : Cmd} : Quiet c → Departs t c
  | release {hash : BlobHash} {n : ℤ} : Departs t (.addAndGet (.refCount hash) n)
  | update {d n : ℕ} {original data : MessageData} {vanished : List WriteOp} :
      Got (.data a d) (some original) t → VanishedOps a vanished →
      (∀ m ∈ original.mailboxes, m.mailboxId ≠ k → m ∈ data.mailboxes) →
      Departs t (.batch (updateBatch a d n data vanished))
  | remove {b d n size : ℕ} {rows : List (Sigma Val)} {seen : MessageData}
      {linked vanished : List WriteOp} {held : Option MessageMetadata} :
      (⟨.iterate (messagePrefix a), rows⟩ : Access) ∈ t →
      (⟨.data b d, seen⟩ : Sigma Val) ∈ rows → seen.mailboxes.length ≤ 1 →
      (∃ m ∈ seen.mailboxes, m.mailboxId = k) → UnlinkOps a held linked →
      VanishedOps a vanished → Departs t (.batch (removalBatch a d n size linked vanished))

end Departs

/-- The thread has found the mailbox of the session and takes messages out of it. -/
def Leaves (s : Session) (t : Trace sig) (c : Cmd) : Prop :=
  Quiet c ∨ ∃ name rows mailbox, s.mailbox = some name ∧
    (⟨.iterate (mailboxPrefix s.accountId), rows⟩ : Access) ∈ t ∧
    s.mailboxIn name rows = some mailbox ∧ Departs s.accountId mailbox.id t c

/-- Why a message is said to have the entry: it was seen with it, or it was written with
it, or it was read again and found to be different from what was seen. -/
inductive Shown (a d : ℕ) (m : MailboxUid) (t : Trace sig) : Prop
  | seen {b : ℕ} {rows : List (Sigma Val)} {data : MessageData} :
      (⟨.iterate (messagePrefix a), rows⟩ : Access) ∈ t →
      (⟨.data b d, data⟩ : Sigma Val) ∈ rows → m ∈ data.mailboxes → Shown a d m t
  | written {n : ℕ} {data : MessageData} {vanished : List WriteOp} :
      (⟨.batch (updateBatch a d n data vanished), ()⟩ : Access) ∈ t →
      VanishedOps a vanished → m ∈ data.mailboxes → Shown a d m t
  | stale {b : ℕ} {v u : Trace sig} {x : Option MessageData} {rows : List (Sigma Val)}
      {data : MessageData} :
      t = v ++ ⟨.get (.data a d), x⟩ :: u →
      (⟨.iterate (messagePrefix a), rows⟩ : Access) ∈ u →
      (⟨.data b d, data⟩ : Sigma Val) ∈ rows → x ≠ some data → Shown a d m t

variable {t u : Trace sig} {data : MessageData} {rows : List (Sigma Val)} {c : Cmd}

variable {s : Session} {a : ℕ}

theorem Shown.mono {d : ℕ} {m : MailboxUid} (h : Shown a d m t) (htu : t <:+ u) : Shown a d m u := by
  cases h with
  | seen hrows hrow hm => exact .seen (htu.subset hrows) hrow hm
  | written hbatch hvanished hm => exact .written (htu.subset hbatch) hvanished hm
  | stale ht hrows hrow hne =>
    obtain ⟨new, rfl⟩ := htu
    exact .stale (by rw [ht, append_assoc]) hrows hrow hne

/-! ## The commands obey this -/

section Obeys
variable {guard : Trace sig → Cmd → Prop} (hquiet : ∀ t c, Quiet c → guard t c)
include hquiet

/-- One update, after any trace: nothing was found, or what the mutation makes of the
record was written. -/
theorem obeys_updateMessage_after (a d : ℕ) (mutate : Mutation) (t : Trace sig)
    (hallow : ∀ u original data vanished n, Got (.data a d) (some original) u → t <:+ u →
      mutate original = .ok data → VanishedOps a vanished →
      guard u (.batch (updateBatch a d n data vanished))) :
    Obeys guard (fun _ => True) (fun v _ => v = ⟨.get (.data a d), none⟩ :: t ∨
      ∃ (new : Trace sig) (original data : MessageData) (vanished : List WriteOp) (n : ℕ),
        v = ⟨.batch (updateBatch a d n data vanished), ()⟩ :: new ++
          ⟨.get (.data a d), some original⟩ :: t ∧
        mutate original = .ok data ∧ VanishedOps a vanished) t (updateMessage a d mutate) := by
  rw [updateMessage_eq]
  refine .perform (hquiet _ _ trivial) fun r => ?_
  cases r with
  | none => exact .ret (.inl rfl)
  | some original =>
    dsimp only
    cases hmutate : mutate original with
    | error e => exact .fail trivial
    | ok data =>
      refine ((yields_pushVanishedOps a data.mailboxes original.mailboxes).obeys hquiet _).bind ?_
      rintro v vanished ⟨hvanished, u, -, rfl⟩
      unfold commitWith ChangeLog.recordOp ChangeLog.allocateChangeId
      simp only [bind_assoc]
      refine .perform (hquiet _ _ rfl) fun n => ?_
      refine .perform (hallow _ original data vanished (max n 1).toNat ?_ ?_ hmutate hvanished)
        fun _ => .ret (.inr ⟨⟨.addAndGet (.number a .email 0) 1, n⟩ :: u, original, data, vanished,
          (max n 1).toNat, rfl, hmutate, hvanished⟩)
      · exact mem_cons_of_mem _ (mem_append_right _ mem_cons_self)
      · exact (suffix_cons _ _).trans ((suffix_append _ _).trans (suffix_cons _ _))

end Obeys

theorem mem_mailboxes_of_uidIn {d k uid : ℕ}
    (h : (MessageCacheEntry.fromData d data).uidIn k = some uid) : ⟨k, uid⟩ ∈ data.mailboxes := by
  obtain ⟨m, hm, rfl⟩ := Option.map_eq_some_iff.1 h
  have hid := find?_some hm
  obtain rfl : m.mailboxId = k := by simpa using hid
  exact mem_of_find?_eq_some hm

def SeenAs (a : ℕ) (t : Trace sig) (entry : MessageCacheEntry) (data : MessageData) : Prop :=
  ∃ b rows, (⟨.iterate (messagePrefix a), rows⟩ : Access) ∈ t ∧
    (⟨.data b entry.documentId, data⟩ : Sigma Val) ∈ rows ∧
    entry = .fromData entry.documentId data

theorem SeenAs.mono {entry : MessageCacheEntry} (h : SeenAs a t entry data)
    (htu : t <:+ u) : SeenAs a u entry data := by
  obtain ⟨b, rows, hrows, hrow, hentry⟩ := h
  exact ⟨b, rows, htu.subset hrows, hrow, hentry⟩

theorem exists_seenAs {k : ℕ} {x : Numbered}
    (hrows : (⟨.iterate (messagePrefix a), rows⟩ : Access) ∈ t)
    (hx : x ∈ numbered (membersIn k rows)) :
    ∃ data, SeenAs a t x.entry data ∧ ∃ m ∈ data.mailboxes, m.mailboxId = k := by
  obtain ⟨b, data, hrow, hentry, huid⟩ := row_of_numbered hx
  rw [hentry] at huid
  exact ⟨data, ⟨b, rows, hrows, hrow, hentry⟩, ⟨k, x.uid⟩, mem_mailboxes_of_uidIn huid, rfl⟩

theorem mem_addMailbox_of_uidIn {d k : ℕ} (uid : ℕ)
    (h : (MessageCacheEntry.fromData d data).uidIn k = none) :
    ⟨k, uid⟩ ∈ (data.addMailbox k uid).mailboxes := by
  have hnone : data.mailboxes.find? (fun m => m.mailboxId == k) = none :=
    Option.map_eq_none_iff.1 h
  have hany : data.mailboxes.any (fun m => m.mailboxId == k) = false := by
    simpa using hnone
  simp [MessageData.addMailbox, hany]

theorem mem_removeMailbox {m : MailboxUid} {k : ℕ} (hm : m ∈ data.mailboxes)
    (hk : m.mailboxId ≠ k) : m ∈ (data.removeMailbox k).mailboxes :=
  mem_filter.2 ⟨hm, by simpa using hk⟩

theorem mem_addMailbox_of_mem {m : MailboxUid} (k uid : ℕ)
    (hm : m ∈ data.mailboxes) : m ∈ (data.addMailbox k uid).mailboxes := by
  unfold MessageData.addMailbox
  split
  · exact hm
  · exact mem_append_left _ hm

section Copying
variable {guard : Trace sig → Cmd → Prop} (hquiet : ∀ t c, Quiet c → guard t c)
  {a sourceId targetId : ℕ} {base : Trace sig}
  (hallow : ∀ t c, base <:+ t → Departs a sourceId t c → guard t c)
include hquiet hallow

variable {t : Trace sig}

theorem obeys_copyOne (moveMode : Bool) {entry : MessageCacheEntry} {data : MessageData}
    (ht : base <:+ t) (hseen : SeenAs a t entry data) :
    Obeys guard (fun _ => True) (fun v uid => sourceId ≠ targetId →
      Shown a entry.documentId ⟨targetId, uid⟩ v) t
      (Session.copyOne a sourceId targetId moveMode entry) := by
  obtain ⟨b, rows, hscan, hrow, hentry⟩ := hseen
  unfold Session.copyOne
  cases hfound : entry.uidIn targetId with
  | some uid =>
    rw [hentry] at hfound
    have hshown : Shown a entry.documentId ⟨targetId, uid⟩ t :=
      .seen hscan hrow (mem_mailboxes_of_uidIn hfound)
    cases moveMode with
    | false => exact .ret fun _ => hshown
    | true =>
      refine (obeys_updateMessage_after hquiet a entry.documentId _ t ?_).andThen
        fun v _ hv _ => .ret fun _ => hshown.mono hv
      intro u original new vanished n hgot hu hmutate hvanished
      refine hallow _ _ (ht.trans hu) (.update hgot hvanished fun m hm hk => ?_)
      rw [← Except.ok.inj hmutate]
      exact mem_removeMailbox hm hk
  | none =>
    rw [hentry] at hfound
    refine ((yields_nextUid a ⟨targetId, "", .none, 0⟩).obeys hquiet t).bind ?_
    rintro _ uid ⟨-, drawn, -, rfl⟩
    have htaken : t <:+ drawn ++ t := suffix_append _ _
    refine (obeys_updateMessage_after hquiet a entry.documentId _ (drawn ++ t) ?_).bind ?_
    · intro u original new vanished n hgot hu hmutate hvanished
      refine hallow _ _ (ht.trans (htaken.trans hu)) (.update hgot hvanished fun m hm hk => ?_)
      rw [← Except.ok.inj hmutate]
      split
      · exact mem_removeMailbox (mem_addMailbox_of_mem _ _ hm) hk
      · exact mem_addMailbox_of_mem _ _ hm
    · rintro v found (rfl | ⟨new, original, written, vanished, n, rfl, hmutate, hvanished⟩)
      · exact .ret fun _ => .stale (nil_append _).symm (htaken.subset hscan) hrow (by simp)
      · refine .ret fun hne => ?_
        by_cases hsame : original = data
        · subst hsame
          refine .written mem_cons_self hvanished ?_
          rw [← Except.ok.inj hmutate]
          split
          · exact mem_removeMailbox (mem_addMailbox_of_uidIn uid hfound) hne.symm
          · exact mem_addMailbox_of_uidIn uid hfound
        · exact .stale rfl (htaken.subset hscan) hrow fun h => hsame (Option.some.inj h)

theorem obeys_copyEach (moveMode : Bool) (xs : List Numbered) (ht : base <:+ t)
    (hseen : ∀ x ∈ xs, ∃ data, SeenAs a t x.entry data) :
    Obeys guard (fun _ => True) (fun v uids => sourceId ≠ targetId →
      List.Forall₂ (fun x uid => Shown a x.entry.documentId ⟨targetId, uid⟩ v) xs uids) t
      (Session.copyEach a sourceId targetId moveMode xs) := by
  induction xs generalizing t with
  | nil => exact .ret fun _ => .nil
  | cons x xs ih =>
    obtain ⟨data, hx⟩ := hseen x mem_cons_self
    refine (obeys_copyOne hquiet hallow moveMode ht hx).andThen fun u uid htu hshown => ?_
    refine (ih (ht.trans htu) fun y hy => ?_).andThen fun v uids huv hrest => ?_
    · obtain ⟨data, hy⟩ := hseen y (mem_cons_of_mem _ hy)
      exact ⟨data, hy.mono htu⟩
    · exact .ret fun hne => .cons ((hshown hne).mono huv) (hrest hne)

end Copying

def ReadMailboxes (s : Session) (t : Trace sig) (rows : List (Sigma Val)) : Prop :=
  (⟨.iterate (mailboxPrefix s.accountId), rows⟩ : Access) ∈ t

structure CopyTold (s : Session) (ranges : List SeqRange) (uidMode : Bool) (targetId : ℕ)
    (t : Trace sig) (source : Mailbox) (scan : List (Sigma Val)) (src dst : List ℕ) : Prop where
  selected : ∃ name rows, s.mailbox = some name ∧ ReadMailboxes s t rows ∧
    s.mailboxIn name rows = some source
  scanned : (⟨.iterate (messagePrefix s.accountId), scan⟩ : Access) ∈ t
  srcUids : src = (addressed ranges uidMode (membersIn source.id scan)).map Numbered.uid
  dstUids : source.id ≠ targetId → List.Forall₂
    (fun x uid => Shown s.accountId x.entry.documentId ⟨targetId, uid⟩ t)
    (addressed ranges uidMode (membersIn source.id scan)) dst

section Commands
variable (s : Session)

theorem obeys_copyApply (ranges : List SeqRange) (target : Mailbox) (uidMode moveMode : Bool)
    (t : Trace sig) :
    Obeys (Leaves s) (fun _ => True) (fun v result =>
      (∀ line ∈ result.expunges, ∃ seqno, line = .expunge seqno) ∧ (result.srcUids = [] ∨
        ∃ source scan, CopyTold s ranges uidMode target.id v source scan result.srcUids
          result.dstUids)) t (s.copyApply ranges target uidMode moveMode) := by
  have hquiet : ∀ t c, Quiet c → Leaves s t c := fun _ _ => .inl
  refine s.obeys_inSelected hquiet (fun _ => ⟨by simp, .inl rfl⟩)
    (fun _ _ _ _ => ⟨by simp, .inl rfl⟩) fun name rows source hname hfound => ?_
  refine (s.obeys_members hquiet source.id _).bind ?_
  rintro _ members ⟨latest, scan, rfl, rfl⟩
  generalize hu : (⟨.iterate (messagePrefix s.accountId), scan⟩ ::
    ⟨.counter (ChangeLog.counterLoc s.accountId .email), latest⟩ ::
    ⟨.iterate (mailboxPrefix s.accountId), rows⟩ :: t : Trace sig) = u
  have hrows : ReadMailboxes s u rows := by simp [ReadMailboxes, ← hu]
  have hscan : (⟨.iterate (messagePrefix s.accountId), scan⟩ : Access) ∈ u := by
    simp [← hu]
  refine (obeys_copyEach hquiet (fun v c hv h => .inr ⟨_, _, _, hname, hv.subset hrows, hfound, h⟩)
    moveMode _ suffix_rfl fun x hx => ?_).andThen fun v uids huv hshown => ?_
  · obtain ⟨data, hdata, -⟩ := exists_seenAs hscan (mem_filter.1 hx).1
    exact ⟨data, hdata⟩
  refine .ret ⟨fun line hline => ?_, .inr ⟨source, scan,
    ⟨name, rows, hname, huv.subset hrows, hfound⟩, huv.subset hscan, rfl, hshown⟩⟩
  split at hline
  · obtain ⟨x, -, rfl⟩ := mem_map.1 hline
    exact ⟨_, rfl⟩
  · cases hline

def Tells (lines : List Line) (validity : ℕ) (src dst : List ℕ) : Prop :=
  ∃ text, Line.tagged .ok (some (.copyUid validity src dst)) text ∈ lines ∨
    Line.okay (.copyUid validity src dst) text ∈ lines

omit s in
theorem code_of_tells {code : Option Code} {expunges : List Line} {completed moved : String}
    {validity : ℕ} {src dst : List ℕ}
    (hexpunges : ∀ line ∈ expunges, ∃ seqno, line = .expunge seqno)
    (h : Tells ((code.map (Line.okay · moved)).toList ++ expunges ++ [done completed]) validity
      src dst) : code = some (.copyUid validity src dst) := by
  obtain ⟨text, h⟩ := h
  simp only [mem_append, Option.mem_toList, Option.map_eq_some_iff, mem_singleton,
    done] at h
  rcases h with ((⟨_, -, h⟩ | h) | h) | ((⟨found, hcode, h⟩ | h) | h)
  · cases h
  · obtain ⟨seqno, h⟩ := hexpunges _ h
    cases h
  · cases h
  · rw [hcode, (Line.okay.inj h).1]
  · obtain ⟨seqno, h⟩ := hexpunges _ h
    cases h
  · cases h

/-- What a reply with the UIDs of copies goes back to. -/
structure CopyReply (ranges : List SeqRange) (targetName : String) (uidMode : Bool)
    (v : Trace sig) (src dst : List ℕ) (target source : Mailbox) (scan : List (Sigma Val)) :
    Prop where
  found : ∃ rows, ReadMailboxes s v rows ∧ s.mailboxIn targetName rows = some target
  differs : ∀ name, s.mailbox = some name → ∃ rows, ReadMailboxes s v rows ∧
    (s.mailboxIn name rows).map Mailbox.id ≠ some target.id
  told : CopyTold s ranges uidMode target.id v source scan src dst

theorem obeys_selectedId {guard : Trace sig → Cmd → Prop} (hquiet : ∀ t c, Quiet c → guard t c)
    (t : Trace sig) :
    Obeys guard (fun _ => True) (fun v found => ∀ name, s.mailbox = some name →
      ∃ rows, ReadMailboxes s v rows ∧ found = (s.mailboxIn name rows).map Mailbox.id) t
      s.selectedId := by
  refine s.obeys_inSelected hquiet (fun hnone => by simp [hnone])
    (fun name rows hname hfound other hother => ?_)
    fun name rows mailbox hname hfound => .ret fun other hother => ?_
  all_goals
    obtain rfl := Option.some.inj (hname.symm.trans hother)
    exact ⟨rows, mem_cons_self, by rw [hfound]; rfl⟩

theorem obeys_runCopy (ranges : List SeqRange) (targetName : String) (uidMode moveMode : Bool) :
    Obeys (Leaves s) (fun _ => True) (fun v lines => ∀ validity src dst, Tells lines validity src dst →
      ∃ target source scan, CopyReply s ranges targetName uidMode v src dst target source scan) []
      (s.runCopy ranges targetName uidMode moveMode) := by
  have hquiet : ∀ t c, Quiet c → Leaves s t c := fun _ _ => .inl
  refine (s.obeys_mailboxNamed hquiet targetName []).bind ?_
  rintro _ found ⟨rows, rfl, hfound⟩
  cases found with
  | none =>
    refine .ret fun validity src dst htells => ?_
    simp [Tells] at htells
  | some target =>
    refine (obeys_selectedId s hquiet _).andThen fun u source hu hsource => ?_
    dsimp only
    split
    next =>
      refine .ret fun validity src dst htells => ?_
      simp [Tells] at htells
    next hne =>
      refine (obeys_copyApply s ranges target uidMode moveMode u).andThen
        fun v result huv ⟨hexpunges, hresult⟩ => ?_
      -- whichever way it is told, the UIDs are those of the result
      have hreply : result.srcUids ≠ [] → ∃ source scan, CopyReply s ranges targetName uidMode v
          result.srcUids result.dstUids target source scan := by
        intro hsome
        obtain ⟨source, scan, htold⟩ := hresult.resolve_left hsome
        refine ⟨source, scan, ⟨rows, (hu.trans huv).subset mem_cons_self, hfound.symm⟩, ?_,
          htold⟩
        intro name hname
        obtain ⟨rows, hrows, hid⟩ := hsource name hname
        exact ⟨rows, huv.subset hrows, hid ▸ hne⟩
      have hcode : ∀ validity src dst, (if result.srcUids.isEmpty then none else
          some (Code.copyUid target.uidValidity result.srcUids result.dstUids)) =
          some (.copyUid validity src dst) → ∃ target source scan,
            CopyReply s ranges targetName uidMode v src dst target source scan := by
        intro validity src dst heq
        split at heq
        next => cases heq
        next hsome =>
          obtain ⟨-, rfl, rfl⟩ := Code.copyUid.inj (Option.some.inj heq)
          obtain ⟨source, scan, hsource⟩ := hreply (by simpa using hsome)
          exact ⟨target, source, scan, hsource⟩
      split
      next =>
        exact .ret fun validity src dst htells =>
          hcode validity src dst (code_of_tells hexpunges htells)
      next =>
        refine .ret fun validity src dst ⟨text, htells⟩ => hcode validity src dst ?_
        rcases htells with htells | htells
        · exact (Line.tagged.inj (mem_singleton.1 htells)).2.1.symm
        · cases mem_singleton.1 htells

theorem obeys_copy (env : Env) (ranges : List SeqRange) (targetName : String)
    (uidMode moveMode : Bool) :
    Obeys (Leaves s) (fun _ => True) (fun v reply => ∀ validity src dst,
      Tells reply.1 validity src dst →
      ∃ target source scan, CopyReply s ranges targetName uidMode v src dst target source scan) []
      (s.dispatch env (.copy ranges targetName uidMode moveMode)) := by
  have hrun : Obeys (Leaves s) (fun _ => True) (fun v reply => ∀ validity src dst,
      Tells reply.1 validity src dst →
      ∃ target source scan, CopyReply s ranges targetName uidMode v src dst target source scan) []
      (s.keep (s.runCopy ranges targetName uidMode moveMode)) :=
    (obeys_runCopy s ranges targetName uidMode moveMode).bind fun _ _ h => .ret h
  have hrefused (text : String) : ∀ validity src dst, ¬ Tells [refusal text] validity src dst := by
    rintro validity src dst ⟨_, h | h⟩ <;> cases mem_singleton.1 h
  cases moveMode with
  | false =>
    exact Session.obeys_whenSelected (fun text _ _ _ h => (hrefused text _ _ _ h).elim) hrun
  | true =>
    exact Session.obeys_whenWritable (fun text _ _ _ h => (hrefused text _ _ _ h).elim) hrun

end Commands

section Expunging
variable (env : Env) {guard : Trace sig → Cmd → Prop} (hquiet : ∀ t c, Quiet c → guard t c)
  {a k : ℕ} {base : Trace sig} (hallow : ∀ t c, base <:+ t → Departs a k t c → guard t c)
include hallow

variable {data : MessageData} {entry : MessageCacheEntry} {t : Trace sig}

theorem obeys_destroy (ht : base <:+ t) (hseen : SeenAs a t entry data)
    (hlast : entry.mailboxes.length ≤ 1)
    (hin : ∃ m ∈ data.mailboxes, m.mailboxId = k) :
    Obeys guard (fun _ => True) (fun _ _ => True) t (deleteMessage env a entry.documentId) := by
  have hdelete := (obeys_deleteMessage env (fun _ _ => MailOp.Allows.quiet) a entry.documentId
    (fun _ _ _ _ => MailOp.Allows.remove) fun _ _ _ _ h => MailOp.Allows.release h rfl).after t
  obtain ⟨b, rows, hrows, hrow, hentry⟩ := hseen
  refine (hdelete.weaken ?_ fun _ _ => trivial).mono fun _ _ _ => trivial
  rintro _ c ⟨v, rfl, hallows⟩
  have hv : t <:+ v ++ t := suffix_append _ _
  refine hallow _ _ (ht.trans hv) ?_
  cases hallows with
  | quiet hq => exact .quiet hq
  | put hfiles => exact hfiles.elim
  | file hfiles => exact hfiles.elim
  | release => exact .release
  | remove hcommit =>
    obtain ⟨linked, vanished, n, hlinked, hvanished, -, rfl⟩ := hcommit.ops
    refine .remove (hv.subset hrows) hrow ?_ hin (hlinked.unlinkOps env) hvanished
    rw [hentry] at hlast
    exact hlast

include hquiet

theorem obeys_leaveMailbox (ht : base <:+ t) (hseen : SeenAs a t entry data)
    (hin : ∃ m ∈ data.mailboxes, m.mailboxId = k) :
    Obeys guard (fun _ => True) (fun _ _ => True) t
      (leaveMailbox env a k entry.documentId entry.mailboxes.length
        (MessageData.removeKeyword · .deleted)) := by
  unfold leaveMailbox
  split
  next hlast => exact (obeys_destroy env hallow ht hseen hlast hin).bind fun _ _ _ => .ret trivial
  next =>
    refine (obeys_updateMessage_after hquiet a entry.documentId _ t ?_).bind
      fun _ _ _ => .ret trivial
    intro u original new vanished n hgot hu hmutate hvanished
    refine hallow _ _ (ht.trans hu) (.update hgot hvanished fun m hm hk => ?_)
    rw [← Except.ok.inj hmutate]
    exact mem_removeMailbox hm hk

theorem obeys_expungeEach (xs : List Numbered) (ht : base <:+ t)
    (hseen : ∀ x ∈ xs, ∃ data, SeenAs a t x.entry data ∧ ∃ m ∈ data.mailboxes, m.mailboxId = k) :
    Obeys guard (fun _ => True) (fun _ _ => True) t (Session.expungeEach env a k xs) := by
  induction xs generalizing t with
  | nil => exact .ret trivial
  | cons x xs ih =>
    obtain ⟨data, hx, hin⟩ := hseen x mem_cons_self
    refine (obeys_leaveMailbox env hquiet hallow ht hx hin).andThen fun v _ hv _ => ?_
    refine ih (ht.trans hv) fun y hy => ?_
    obtain ⟨data, hy, hin⟩ := hseen y (mem_cons_of_mem _ hy)
    exact ⟨data, hy.mono hv, hin⟩

end Expunging

theorem obeys_expunge (env : Env) (s : Session) (ranges : Option (List SeqRange)) :
    Obeys (Leaves s) (fun _ => True) (fun _ _ => True) [] (s.dispatch env (.expunge ranges)) := by
  have hquiet : ∀ t c, Quiet c → Leaves s t c := fun _ _ => .inl
  have happly : Obeys (Leaves s) (fun _ => True) (fun _ _ => True) []
      (s.applyExpunge env ranges) := by
    refine s.obeys_inSelected hquiet (fun _ => trivial) (fun _ _ _ _ => trivial)
      fun name rows mailbox hname hfound => ?_
    refine (s.obeys_members hquiet mailbox.id _).bind ?_
    rintro _ members ⟨latest, scan, rfl, rfl⟩
    refine (obeys_expungeEach env hquiet (fun t c ht h => .inr ⟨_, _, _, hname, ht.subset (by simp),
      hfound, h⟩) _ suffix_rfl fun x hx => ?_).bind fun _ _ _ => ?_
    · exact exists_seenAs mem_cons_self (mem_filter.1 hx).1
    · split <;> exact .ret trivial
  have hrun : Obeys (Leaves s) (fun _ => True) (fun _ _ => True) [] (s.runExpunge env ranges) :=
    happly.bind fun _ _ _ => .ret trivial
  exact Session.obeys_whenWritable (fun _ => trivial) (hrun.bind fun _ _ _ => .ret trivial)

/-! ## What stays true between reads and writes -/

def touched : Cmd → List (ℕ × ℕ)
  | .get (.data a d) => [(a, d)]
  | c => c.writes.filterMap fun op =>
      match op.loc with
      | .data a d => some (a, d)
      | _ => none

def recordsSeen (a d : ℕ) : Access → List (Option MessageData)
  | ⟨.get (.data b e), x⟩ => if b = a ∧ e = d then [x] else []
  | ⟨.iterate p, rows⟩ => if p = messagePrefix a then
      rows.filterMap fun
        | ⟨.data _ e, data⟩ => if e = d then some (some data) else none
        | _ => none
      else []
  | _ => []

section UpToDate
variable {ι : Type} [DecidableEq ι]

/-- Whatever the thread has seen of the messages that it now reads or writes is still so. -/
def UpToDate (e : Event sig World ι) (past : Past ι) : Prop :=
  ∀ p ∈ touched e.cmd, ∀ x ∈ traceOf e.who past, ∀ r ∈ recordsSeen p.1 p.2 x,
    e.before.records.lookup (.data p.1 p.2) = r

instance UpToDate.decidable (e : Event sig World ι) (past : Past ι) :
    Decidable (UpToDate e past) :=
  inferInstanceAs (Decidable (∀ p ∈ touched e.cmd, ∀ x ∈ traceOf e.who past,
    ∀ r ∈ recordsSeen p.1 p.2 x, e.before.records.lookup (.data p.1 p.2) = r))

theorem mem_touched {ops : List WriteOp} {op : WriteOp} {d : ℕ} (hop : op ∈ ops)
    (hloc : op.loc = .data a d) : (a, d) ∈ touched (.batch ops) := by
  refine mem_filterMap.2 ⟨op, hop, ?_⟩
  rw [hloc]

theorem mem_recordsSeen_scan {b d : ℕ} {rows : List (Sigma Val)} {data : MessageData}
    (h : (⟨.data b d, data⟩ : Sigma Val) ∈ rows) :
    some data ∈ recordsSeen a d ⟨.iterate (messagePrefix a), rows⟩ := by
  rw [recordsSeen, if_pos rfl]
  exact mem_filterMap.2 ⟨_, h, if_pos rfl⟩

end UpToDate

theorem mem_removalBatch (a d n size : ℕ) (linked vanished : List WriteOp) :
    .delete (.data a d) ∈ removalBatch a d n size linked vanished := by
  simp [removalBatch_eq]

theorem Departs.kind_ne_mailbox {k : ℕ} (h : Departs a k t c) :
    ∀ op ∈ c.writes, op.loc.kind ≠ .mailbox := by
  intro op hop hkind
  have hwithin : ∃ K, Within K c.writes ∧ .mailbox ∉ K := by
    cases h with
    | quiet hq => exact ⟨_, within_of_quiet hq, by decide⟩
    | release => exact ⟨[.counter], within_nil.cons (by simp), by decide⟩
    | update _ hvanished => exact ⟨_, within_updateBatch hvanished, by decide⟩
    | remove _ _ _ _ hlinked hvanished =>
      exact ⟨_, within_removalBatch hlinked hvanished, by decide⟩
  obtain ⟨K, hwithin, hK⟩ := hwithin
  exact hK (hkind ▸ hwithin op hop)

theorem eq_of_mem_of_length_le_one {α : Type} {xs : List α} (h : xs.length ≤ 1) {x y : α}
    (hx : x ∈ xs) (hy : y ∈ xs) : x = y := by
  cases xs with
  | nil => cases hx
  | cons z xs =>
    obtain rfl : xs = [] := by simpa using h
    rw [mem_singleton.1 hx, mem_singleton.1 hy]

section Step
variable {ι : Type} [DecidableEq ι] {digest : Digest} {a k d : ℕ} {m : MailboxUid}

variable {e : Event sig World ι} {past : Past ι} {mailboxes : List (Sigma Val)}
  {name : String} {source : Mailbox} {v w : World} {i : ι}

theorem Departs.placed (h : Departs a k (traceOf e.who past) e.cmd) (hfresh : UpToDate e past)
    (hk : m.mailboxId ≠ k)
    (hplaced : Placed e.before.records (a, d, m)) :
    Placed (machine digest e.cmd e.before).2.records (a, d, m) := by
  obtain ⟨i, v, cmd, res⟩ := e
  obtain ⟨current, hcurrent, hm⟩ := hplaced
  have hsame {K : List LocKind} (hK : Within K cmd.writes) (hdata : .data ∉ K) :
      Placed (machine digest cmd v).2.records (a, d, m) := by
    refine ⟨current, Eq.trans (lookup_machine_of_ne digest fun op hop => ?_) hcurrent, hm⟩
    exact hK.loc_ne (l := .data a d) hdata op (Cmd.writes_of_written hop)
  cases h with
  | quiet hq => exact hsame (within_of_quiet hq) (by decide)
  | release => exact hsame (K := [.counter]) (within_nil.cons (by simp)) (by decide)
  | @update d' n original data vanished hgot hvanished hkeeps =>
    have hafter : (machine digest (.batch (updateBatch a d' n data vanished)) v).2.records.lookup
        (.data a d) = if Loc.data a d' = .data a d then some data else some current := by
      change (v.records.batch _).lookup _ = _
      rw [Records.lookup_batch, effects_updateBatch_data hvanished, hcurrent]
    by_cases hd : d' = d
    · subst hd
      have hread : v.records.lookup (.data a d') = some original :=
        hfresh _ (mem_touched mem_cons_self rfl) _ hgot _ (by simp [recordsSeen])
      obtain rfl : current = original := Option.some.inj (hcurrent.symm.trans hread)
      rw [if_pos rfl] at hafter
      exact ⟨data, hafter, hkeeps m hm hk⟩
    · rw [if_neg fun h => hd (Loc.data.inj h).2] at hafter
      exact ⟨current, hafter, hm⟩
  | @remove b d' n size rows seen linked vanished held hrows hrow hlast hin hlinked hvanished =>
    by_cases hd : d' = d
    · -- the message was seen in no mailbox but the one it is taken out of
      subst hd
      have hread := hfresh _ (mem_touched (mem_removalBatch _ _ _ _ _ _) rfl) _ hrows _
        (mem_recordsSeen_scan hrow)
      obtain rfl : current = seen := Option.some.inj (hcurrent.symm.trans hread)
      obtain ⟨left, hleft, hid⟩ := hin
      obtain rfl : m = left := eq_of_mem_of_length_le_one hlast hm hleft
      exact absurd hid hk
    · refine ⟨current, Eq.trans ?_ hcurrent, hm⟩
      exact lookup_removed_of_ne hlinked hvanished (by simp)
        (fun h => hd (Loc.data.inj h).2.symm) (by simp)

/-- What holds of every event when the threads take messages out of the mailbox of the
session and come back to no message that has changed. -/
structure Orderly (s : Session) (mailboxes : List (Sigma Val)) (e : Event sig World ι)
    (past : Past ι) : Prop where
  leaves : Leaves s (traceOf e.who past) e.cmd
  fresh : UpToDate e past
  mailboxes : ∀ rows, ReadMailboxes s (traceOf e.who past) rows → rows = mailboxes

theorem Orderly.departs (h : Orderly s mailboxes e past) (hname : s.mailbox = some name)
    (hsource : s.mailboxIn name mailboxes = some source) :
    Departs s.accountId source.id (traceOf e.who past) e.cmd := by
  rcases h.leaves with hq | ⟨other, rows, mailbox, hother, hrows, hmailbox, hdeparts⟩
  · exact .quiet hq
  · obtain rfl : name = other := Option.some.inj (hname.symm.trans hother)
    rw [h.mailboxes rows hrows, hsource] at hmailbox
    rwa [Option.some.inj hmailbox]

theorem placed_of_history {post pre : Past ι} {u : World}
    (hhistory : History (machine digest) u post v)
    (horderly : Always (Orderly s mailboxes) (post ++ pre)) (hname : s.mailbox = some name)
    (hsource : s.mailboxIn name mailboxes = some source) (hm : m.mailboxId ≠ source.id)
    (hplaced : Placed u.records (s.accountId, d, m)) : Placed v.records (s.accountId, d, m) := by
  induction post generalizing v with
  | nil =>
    obtain rfl : v = u := hhistory
    exact hplaced
  | cons e post ih =>
    obtain ⟨rfl, -, hpast⟩ := hhistory
    exact (horderly.1.departs hname hsource).placed horderly.1.fresh hm (ih hpast horderly.2)

theorem lookup_of_mem_scan {b : ℕ} {data : MessageData}
    (h : (⟨.data b d, data⟩ : Sigma Val) ∈ w.records.iterate (messagePrefix a)) :
    w.records.lookup (.data a d) = some data := by
  obtain ⟨hkey, hdata⟩ := Records.mem_iterate.1 h
  obtain rfl : a = b := by
    simpa [KeyPrefix.ofCollection, KeyPrefix.encode, Loc.encode, Key.encode] using hkey
  exact hdata

theorem placed_of_shown (hhistory : History (machine digest) w past v)
    (horderly : Always (Orderly s mailboxes) past) (hname : s.mailbox = some name)
    (hsource : s.mailboxIn name mailboxes = some source) (hm : m.mailboxId ≠ source.id)
    (h : Shown s.accountId d m (traceOf i past)) : Placed v.records (s.accountId, d, m) := by
  cases h with
  | @seen b rows data hrows hrow hmem =>
    obtain ⟨r, hr, -, -, rfl⟩ := exists_scan hhistory hrows
    obtain ⟨post, pre, rfl⟩ := append_of_mem hr
    have hr := horderly.of_split
    obtain ⟨u, ⟨hu, -, -⟩, hpost⟩ := hhistory.split
    refine placed_of_history hpost horderly hname hsource hm ?_
    rw [hu]
    exact (hr.departs hname hsource).placed hr.fresh hm ⟨data, lookup_of_mem_scan hrow, hmem⟩
  | @written n data vanished hbatch hvanished hmem =>
    obtain ⟨e, he, -, heq⟩ := mem_traceOf.1 hbatch
    obtain ⟨post, pre, rfl⟩ := append_of_mem he
    obtain ⟨u, ⟨hu, -, -⟩, hpost⟩ := hhistory.split
    refine placed_of_history hpost horderly hname hsource hm ⟨data, ?_, hmem⟩
    obtain ⟨j, before, cmd, res⟩ := e
    cases heq
    rw [hu]
    change (before.records.batch _).lookup _ = _
    rw [Records.lookup_batch, effects_updateBatch_data hvanished, if_pos rfl]
  | @stale b u t x rows data ht hrows hrow hne =>
    obtain ⟨post, e, pre, rfl, hwho, heq, hpre⟩ := exists_of_traceOf_eq ht
    exfalso
    have hfresh : UpToDate e pre := horderly.of_split.fresh
    have hres := hhistory.res_eq _ (mem_append_right post mem_cons_self)
    obtain ⟨j, before, cmd, res⟩ := e
    cases heq
    obtain rfl : j = i := hwho
    rw [← hpre] at hrows
    have hseen := hfresh _ mem_cons_self _ hrows _ (mem_recordsSeen_scan hrow)
    exact hne (hres.trans hseen)

omit [DecidableEq ι] in
theorem mailboxes_eq (hhistory : History (machine digest) w past v)
    (hleaves : ∀ e ∈ past, ∃ t, Leaves s t e.cmd) :
    v.records.iterate (mailboxPrefix s.accountId) =
      w.records.iterate (mailboxPrefix s.accountId) := by
  refine iterate_mailboxes_congr fun id => ?_
  by_contra hne
  obtain ⟨e, he, op, hop, hloc⟩ := written_of_history hhistory hne
  obtain ⟨t, hq | ⟨-, -, mailbox, -, -, -, hdeparts⟩⟩ := hleaves e he
  · have hkind := within_of_quiet hq op (Cmd.writes_of_written hop)
    rw [hloc] at hkind
    simp [Loc.kind] at hkind
  · refine hdeparts.kind_ne_mailbox op (Cmd.writes_of_written hop) ?_
    rw [hloc]
    rfl

theorem eq_of_readMailboxes (hhistory : History (machine digest) w past v)
    (hleaves : Always (fun e t => Leaves s (traceOf e.who t) e.cmd) past)
    {rows : List (Sigma Val)} (hrows : ReadMailboxes s (traceOf i past) rows) :
    rows = w.records.iterate (mailboxPrefix s.accountId) := by
  obtain ⟨r, hr, -, -, rfl⟩ := exists_scan hhistory hrows
  obtain ⟨post, pre, rfl⟩ := append_of_mem hr
  obtain ⟨-, ⟨-, -, hpre⟩, -⟩ := hhistory.split
  refine mailboxes_eq hpre fun e he => ?_
  obtain ⟨t, ht⟩ := (Always.of_append hleaves).2.exists_of_mem he
  exact ⟨_, ht⟩

theorem orderly_of_leaves (hhistory : History (machine digest) w past v)
    (hleaves : Always (fun e t => Leaves s (traceOf e.who t) e.cmd) past)
    (hfresh : Always UpToDate past) :
    Always (Orderly s (w.records.iterate (mailboxPrefix s.accountId))) past := by
  refine Always.of_forall_split fun post e pre hpast => ?_
  subst hpast
  obtain ⟨-, ⟨-, -, hpre⟩, -⟩ := hhistory.split
  exact ⟨hleaves.of_split, hfresh.of_split, fun rows hrows =>
    eq_of_readMailboxes hpre (Always.of_append hleaves).2 hrows⟩

end Step

theorem leaves_congr {e : Session} (haccount : e.account = s.account)
    (hmailbox : e.mailbox = s.mailbox) (t : Trace sig) (c : Cmd) (h : Leaves e t c) :
    Leaves s t c := by
  unfold Leaves Session.mailboxIn Session.accountId at h ⊢
  rwa [haccount, hmailbox] at h

/-! ## Both commands together -/

def copyBeside (env : Env) (s e : Session) (ranges : List SeqRange) (targetName : String)
    (uidMode moveMode : Bool) (expunged : Option (List SeqRange)) (w : World)
    (schedule : List Bool) : Pool sig World Bool (List Line × Session) :=
  (Pool.start w fun
    | false => s.dispatch env (.copy ranges targetName uidMode moveMode)
    | true => e.dispatch env (.expunge expunged)).run (machine env.digest) schedule

/-- In every interleaving of a COPY or MOVE with an EXPUNGE of its source, if whatever a
command has seen of a message still holds when it reads or writes it again, every message
that the reply gives a UID in the target has it there, when the command has ended and
ever after. -/
theorem copy_survives (env : Env) (s e : Session) (haccount : e.account = s.account)
    (hmailbox : e.mailbox = s.mailbox) (ranges : List SeqRange) (targetName : String)
    (uidMode moveMode : Bool) (expunged : Option (List SeqRange)) (w : World)
    (schedule : List Bool)
    (hfresh : Always UpToDate
      (copyBeside env s e ranges targetName uidMode moveMode expunged w schedule).past) :
    let p := copyBeside env s e ranges targetName uidMode moveMode expunged w schedule
    let mailboxes := w.records.iterate (mailboxPrefix s.accountId)
    ∀ reply, p.thread false = .ret reply → ∀ validity src dst, Tells reply.1 validity src dst →
      ∃ target source : Mailbox, s.mailboxIn targetName mailboxes = some target ∧
        s.mailbox.bind (s.mailboxIn · mailboxes) = some source ∧
        ∃ r ∈ p.past, r.who = false ∧ r.cmd = .iterate (messagePrefix s.accountId) ∧
          let xs := addressed ranges uidMode (membersIn source.id
            (r.before.records.iterate (messagePrefix s.accountId)))
          src = xs.map Numbered.uid ∧ List.Forall₂ (fun x uid =>
            Placed p.state.records (s.accountId, x.entry.documentId, ⟨target.id, uid⟩)) xs dst := by
  intro p mailboxes reply hreply validity src dst htells
  have hrun : Pool.Obeying (machine env.digest) (fun _ : Bool => Leaves s) (fun _ => True)
      (fun j v reply => j = false → ∀ validity src dst, Tells reply.1 validity src dst →
        ∃ target source scan, CopyReply s ranges targetName uidMode v src dst target source scan)
      w p := by
    refine Pool.obeying_run (machine env.digest) w (fun j => ?_) schedule
    cases j with
    | false =>
      exact (obeys_copy s env ranges targetName uidMode moveMode).mono fun _ _ h _ => h
    | true =>
      exact ((obeys_expunge env e expunged).weaken (leaves_congr haccount hmailbox)
        fun _ => id).mono fun _ _ _ => nofun
  obtain ⟨target, source, scan, hcopy⟩ := hrun.returned _ hreply rfl validity src dst htells
  have horderly := orderly_of_leaves hrun.history hrun.events hfresh
  have hmailboxes : ∀ rows, ReadMailboxes s (traceOf false p.past) rows → rows = mailboxes :=
    fun rows => eq_of_readMailboxes hrun.history hrun.events
  obtain ⟨rows, hrows, htarget⟩ := hcopy.found
  obtain ⟨name, rows', hname, hrows', hsource⟩ := hcopy.told.selected
  obtain ⟨rows'', hrows'', hne⟩ := hcopy.differs name hname
  rw [hmailboxes _ hrows] at htarget
  rw [hmailboxes _ hrows'] at hsource
  rw [hmailboxes _ hrows'', hsource] at hne
  have hne : source.id ≠ target.id := fun h => hne (congrArg some h)
  obtain ⟨r, hr, hwho, hcmd, rfl⟩ := exists_scan hrun.history hcopy.told.scanned
  refine ⟨target, source, htarget, by rw [hname]; exact hsource, r, hr, hwho, hcmd,
    hcopy.told.srcUids, (hcopy.told.dstUids hne).imp fun x uid hshown => ?_⟩
  exact placed_of_shown hrun.history horderly hname hsource hne.symm hshown

/-! ## A message that is marked as deleted -/

def oneDeleted : World :=
  { World.empty (.new 0) 0 with
    records := (∅ : Records).batch
      [.set (.data 7 1) (((MessageData.new 1 1).addMailbox 1 1).addKeyword .deleted)] }

def copyOrExpunge (schedule : List Bool) : Pool sig World Bool (List Line × Session) :=
  copyBeside .plain inboxSession inboxSession [⟨.num 1, .num 1⟩] "Trash" true false none oneDeleted schedule

def messageOf (p : Pool sig World Bool (List Line × Session)) : Option (List MailboxUid) :=
  (p.state.records.lookup (.data 7 1)).map MessageData.mailboxes

def copiedBetween : List Bool :=
  List.replicate 3 true ++ List.replicate 12 false ++ List.replicate 8 true

/-- The client is told the UID of the copy, the copy is there, and then the message is
destroyed. -/
theorem copiedBetween_lost :
    (∃ reply, (copyOrExpunge copiedBetween).thread false = .ret reply ∧
      Tells reply.1 0 [1] [1]) ∧
    messageOf (copyOrExpunge (copiedBetween.take 15)) = some [⟨1, 1⟩, ⟨4, 1⟩] ∧
    messageOf (copyOrExpunge copiedBetween) = none := by
  refine ⟨⟨_, rfl, _, .inl List.mem_cons_self⟩, by decide +kernel, by decide +kernel⟩

def copiedBefore : List Bool :=
  [true] ++ List.replicate 12 false ++ List.replicate 8 true

theorem copiedBefore_survives :
    Always UpToDate (copyOrExpunge copiedBefore).past ∧
      messageOf (copyOrExpunge copiedBefore) = some [⟨4, 1⟩] ∧
      ∃ d, Placed (copyOrExpunge copiedBefore).state.records (7, d, ⟨4, 1⟩) := by
  have hfresh : Always UpToDate (copyOrExpunge copiedBefore).past := by decide +kernel
  refine ⟨hfresh, by decide +kernel, ?_⟩
  have hreply : (copyOrExpunge copiedBefore).thread false =
      .ret ([.tagged .ok (some (.copyUid 0 [1] [1])) "UID COPY completed"], inboxSession) := rfl
  have hsurvives := copy_survives .plain inboxSession inboxSession rfl rfl [⟨.num 1, .num 1⟩] "Trash" true
    false none oneDeleted copiedBefore hfresh _ hreply 0 [1] [1] ⟨_, .inl List.mem_cons_self⟩
  obtain ⟨target, source, htarget, -, r, -, -, -, -, hplaced⟩ := hsurvives
  have htrash : inboxSession.mailboxIn "Trash"
      (oneDeleted.records.iterate (mailboxPrefix inboxSession.accountId)) =
        some ⟨4, "Trash", .trash, 0⟩ := rfl
  obtain rfl : target = ⟨4, "Trash", .trash, 0⟩ := Option.some.inj (htarget.symm.trans htrash)
  obtain ⟨x, -, h, -, -⟩ := List.forall₂_cons_right_iff.1 hplaced
  exact ⟨_, h⟩

end IrixMail.Imap
