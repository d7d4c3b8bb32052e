import IrixMail.Library.Triples
import IrixMail.Mail.Stored
import IrixMail.Pop3.Session

/-!
# What QUIT removes

The marked entries name documents, and a document is one message in all the mailboxes
it is filed in. QUIT deletes the document: it takes a marked message out of the INBOX,
and out of every other mailbox with it.
-/

namespace IrixMail.Pop3
open Library Prog Store Mail

/-- The messages `gone` of an account are deleted; every other message, of this account
or another, keeps its records, and no body is touched. -/
structure Drops (a : ℕ) (gone : List ℕ) (w w' : World) : Prop where
  data : ∀ d ∈ gone, w'.records.lookup (.data a d) = none
  others : ∀ b e, ¬ (b = a ∧ e ∈ gone) →
    w'.records.lookup (.data b e) = w.records.lookup (.data b e) ∧
      w'.records.lookup (.metadata b e) = w.records.lookup (.metadata b e)
  blobs : w'.blobs = w.blobs

theorem Drops.refl (a : ℕ) (w : World) : Drops a [] w w :=
  ⟨by simp, fun _ _ _ => ⟨rfl, rfl⟩, rfl⟩

variable {a d : ℕ} {w w' : World} {marked : List ℕ}

theorem Drops.cons {ds : List ℕ} {w'' : World} (h : Drops a [d] w w')
    (h' : Drops a ds w' w'') : Drops a (d :: ds) w w'' := by
  refine ⟨fun e he => ?_, fun b e hne => ?_, h'.blobs.trans h.blobs⟩
  · by_cases hmem : e ∈ ds
    · exact h'.data e hmem
    · have hd : e ∈ [d] := by simpa [hmem] using he
      exact (h'.others a e fun hboth => hmem hboth.2).1.trans (h.data e hd)
  · have hne' : ¬ (b = a ∧ e ∈ ds) := fun hboth => hne ⟨hboth.1, List.mem_cons_of_mem _ hboth.2⟩
    have hned : ¬ (b = a ∧ e ∈ [d]) := by
      rintro ⟨hb, he⟩
      exact hne ⟨hb, List.mem_cons.2 (.inl (List.mem_singleton.1 he))⟩
    obtain ⟨hdata', hmetadata'⟩ := h'.others b e hne'
    obtain ⟨hdata, hmetadata⟩ := h.others b e hned
    exact ⟨hdata'.trans hdata, hmetadata'.trans hmetadata⟩

variable (env : Env)

theorem resting_commitWith {α : Type} (a d : ℕ) (kind : ChangeKind) (ops : List WriteOp)
    (k : Action α) (w : World) :
    ∃ (n : ℕ) (w' : World), Resting w w' ∧
      (commitWith a d kind ops k).run (machine env.digest) w =
        k.run (machine env.digest)
          { w' with records := w'.records.batch (ops ++ [changeOp a d n kind]) } :=
  ⟨_, (machine env.digest (.addAndGet (.number a .email 0) 1) w).2,
    ⟨calm_draw w.records a .email 0, rfl⟩, rfl⟩

theorem drops_removed {n size : ℕ} {held : Option MessageMetadata}
    {linked vanished : List WriteOp} (hlinked : UnlinkOps a held linked)
    (hvanished : VanishedOps a vanished) {v : World} (hrest : Resting w v) :
    Drops a [d] w { v with records :=
      (v.records.batch (removalBatch a d n size linked vanished)).batch (releaseOps held) } := by
  refine ⟨fun e he => ?_, fun b e hne => ⟨?_, ?_⟩, hrest.2⟩
  · obtain rfl := List.mem_singleton.1 he
    exact (lookup_released (by simp)).trans (lookup_removed_data hvanished)
  · have hdata : Loc.data b e ≠ .data a d := fun h => hne (by simpa using h)
    refine (lookup_released (by simp)).trans ?_
    exact (lookup_removed_of_ne hlinked hvanished (by simp) hdata (by simp)).trans
      (hrest.1.data b e)
  · have hmetadata : Loc.metadata b e ≠ .metadata a d := fun h => hne (by simpa using h)
    refine (lookup_released (by simp)).trans ?_
    exact (lookup_removed_of_ne hlinked hvanished (by simp) (by simp) hmetadata).trans
      (hrest.1.metadata b e)

theorem drops_deleteMessage (a d : ℕ) (w : World) :
    ∃ (found : Bool) (w' : World), (deleteMessage env a d).run (machine env.digest) w =
      (.ok found, w') ∧ Drops a [d] w w' := by
  cases hdata : w.records.lookup (.data a d) with
  | none =>
    refine ⟨false, w, run_deleteMessage_none env hdata, fun e he => ?_, fun _ _ _ => ⟨rfl, rfl⟩, rfl⟩
    rwa [List.mem_singleton.1 he]
  | some data =>
    rw [deleteMessage_eq, run_exec_bind]
    simp only [machine, hdata]
    rw [run_exec_bind]
    simp only [machine]
    generalize w.records.lookup (.metadata a d) = held
    obtain ⟨linked, t, hlinked, hrestt, hrun⟩ := resting_yields_bind env.digest
      (yields_removalMetadataOps env a d held) _ w
    rw [hrun]
    obtain ⟨vanished, u, hvanished, hrestu, hrun'⟩ := resting_yields_bind env.digest
      (yields_pushVanishedOps a [] data.mailboxes) _ t
    rw [hrun']
    obtain ⟨n, v, hrestv, hrun''⟩ := resting_commitWith env a d .delete
      (linked ++ removalOps a d data.size vanished) (releaseAfter held >>= fun _ => .ret true) u
    rw [hrun'']
    cases held <;> exact ⟨true, _, rfl, drops_removed hlinked hvanished ((hrestt.trans hrestu).trans hrestv)⟩

theorem drops_deleteEach (a : ℕ) (ds : List ℕ) (w : World) :
    ∃ w', (deleteEach env a ds).run (machine env.digest) w = (.ok (), w') ∧ Drops a ds w w' := by
  induction ds generalizing w with
  | nil => exact ⟨w, rfl, .refl a w⟩
  | cons d ds ih =>
    obtain ⟨found, v, hrun, hdrops⟩ := drops_deleteMessage env a d w
    obtain ⟨w', hrun', hdrops'⟩ := ih v
    refine ⟨w', ?_, hdrops.cons hdrops'⟩
    rw [deleteEach, run_bind, hrun]
    exact hrun'

/-! ## The maildrop alone -/

def elsewhere (s : Records) (a d : ℕ) : List MailboxUid :=
  (entriesAt s a d).filter fun e => e.mailboxId != inboxId

/-- Only the maildrop is changed: the marked messages leave the INBOX and stay, with
their flags, wherever else they are filed, and the others stay as they are. -/
structure RemovesFromMaildrop (a : ℕ) (marked : List ℕ) (w w' : World) : Prop where
  left : ∀ d ∈ marked, ∀ e ∈ entriesAt w'.records a d, e.mailboxId ≠ inboxId
  stays : ∀ d ∈ marked, elsewhere w'.records a d = elsewhere w.records a d
  flags : ∀ d ∈ marked, elsewhere w.records a d ≠ [] → ∃ before after,
    w.records.lookup (.data a d) = some before ∧ w'.records.lookup (.data a d) = some after ∧
      after.keywords = before.keywords
  others : ∀ b e, ¬ (b = a ∧ e ∈ marked) →
    w'.records.lookup (.data b e) = w.records.lookup (.data b e) ∧
      w'.records.lookup (.metadata b e) = w.records.lookup (.metadata b e)
  bodies : w'.blobs = w.blobs

theorem elsewhere_eq_nil {s : Records} :
    elsewhere s a d = [] ↔ ∀ e ∈ entriesAt s a d, e.mailboxId = inboxId := by
  simp [elsewhere]

theorem Drops.removesFromMaildrop_iff (h : Drops a marked w w') :
    RemovesFromMaildrop a marked w w' ↔
      ∀ d ∈ marked, ∀ e ∈ entriesAt w.records a d, e.mailboxId = inboxId := by
  have hnone : ∀ d ∈ marked, entriesAt w'.records a d = [] := by
    intro d hd
    rw [entriesAt, h.data d hd]
    rfl
  constructor
  · intro hremoves d hd
    rw [← elsewhere_eq_nil, ← hremoves.stays d hd, elsewhere, hnone d hd]
    rfl
  · intro honly
    refine ⟨fun d hd e he => ?_, fun d hd => ?_, fun d hd hne => ?_, h.others, h.blobs⟩
    · rw [hnone d hd] at he
      cases he
    · rw [elsewhere_eq_nil.2 (honly d hd), elsewhere, hnone d hd]
      rfl
    · exact absurd (elsewhere_eq_nil.2 (honly d hd)) hne

theorem not_removesFromMaildrop (hd : d ∈ marked)
    (helsewhere : elsewhere w.records a d ≠ []) (hnone : w'.records.lookup (.data a d) = none) :
    ¬ RemovesFromMaildrop a marked w w' := by
  intro hremoves
  refine helsewhere ((hremoves.stays d hd).symm.trans ?_)
  rw [elsewhere, entriesAt, hnone]
  rfl

/-- QUIT answers for any session that is logged in, and it changes the maildrop alone
exactly when no marked message is filed in another mailbox, whatever put it there and
whenever. -/
theorem quit_removesFromMaildrop_iff (s : Session) (lines : List Bytes) (w : World)
    (account : Directory.Account) (hstate : s.state = .transaction)
    (haccount : s.account = some account) :
    ∃ turn w', (s.onQuit env lines).run (machine env.digest) w = (.ok turn, w') ∧
      turn.session.messages = s.messages.live ∧
      (RemovesFromMaildrop account.mailId s.messages.doomed w w' ↔
        ∀ d ∈ s.messages.doomed, ∀ e ∈ entriesAt w.records account.mailId d,
          e.mailboxId = inboxId) := by
  obtain ⟨w', hrun, hdrops⟩ := drops_deleteEach env account.mailId s.messages.doomed w
  refine ⟨⟨lines, { s with messages := s.messages.live }, [utf8Bytes quitResponse], some .close⟩, w',
    ?_, rfl, hdrops.removesFromMaildrop_iff⟩
  rw [Session.onQuit, hstate, haccount]
  dsimp only
  rw [commitDeletions, bind_assoc, run_bind, hrun]
  rfl

/-! ## A message in two mailboxes -/

def worldWith (entries : List MailboxUid) : World :=
  { World.empty (IdGenerator.new 0) 0 with
    records := ((∅ : Records).insert (.data 1 1) ⟨entries, [.flagged], 1, 2, 0, 0⟩).insert
      (.metadata 1 1) ⟨[104, 105], [], [], ""⟩
    blobs := (∅ : Blobs).insert [104, 105] ⟨[104, 105], 0⟩ }

def markingFirst (w : World) : Session :=
  let messages := ((loadMaildrop (.plain 1 "alice")).run (machine Env.plain.digest) w).1.toOption
  { state := .transaction, isTls := true, authenticated := true
    account := some (.plain 1 "alice"), messages := ((messages.getD []).dele 1).1 }

theorem quit_of_inbox_message :
    let w := worldWith [⟨1, 1⟩]
    let s := markingFirst w
    s.messages.doomed = [1] ∧ ∃ turn w', (s.onQuit Env.plain []).run (machine Env.plain.digest) w =
        (.ok turn, w') ∧ turn.session.messages = s.messages.live ∧
      (RemovesFromMaildrop 1 s.messages.doomed w w' ↔
        ∀ d ∈ s.messages.doomed, ∀ e ∈ entriesAt w.records 1 d, e.mailboxId = inboxId) :=
  ⟨by decide +kernel, quit_removesFromMaildrop_iff Env.plain (markingFirst (worldWith [⟨1, 1⟩])) []
    (worldWith [⟨1, 1⟩]) (.plain 1 "alice") rfl rfl⟩

def quitWorld (w : World) : World :=
  (((markingFirst w).onQuit Env.plain []).run (machine Env.plain.digest) w).2

/-- The message is also filed in mailbox 2; deleting it from the maildrop deletes it there. -/
theorem quit_deletes_elsewhere :
    (markingFirst (worldWith [⟨1, 1⟩, ⟨2, 1⟩])).messages.doomed = [1] ∧
      elsewhere (worldWith [⟨1, 1⟩, ⟨2, 1⟩]).records 1 1 = [⟨2, 1⟩] ∧
      (quitWorld (worldWith [⟨1, 1⟩, ⟨2, 1⟩])).records.lookup (.data 1 1) = none ∧
      ¬ RemovesFromMaildrop 1 [1] (worldWith [⟨1, 1⟩, ⟨2, 1⟩])
        (quitWorld (worldWith [⟨1, 1⟩, ⟨2, 1⟩])) := by
  have helsewhere : elsewhere (worldWith [⟨1, 1⟩, ⟨2, 1⟩]).records 1 1 = [⟨2, 1⟩] := by
    decide +kernel
  have hnone : (quitWorld (worldWith [⟨1, 1⟩, ⟨2, 1⟩])).records.lookup (.data 1 1) = none := by
    decide +kernel
  exact ⟨by decide +kernel, helsewhere, hnone,
    not_removesFromMaildrop (List.mem_singleton_self 1) (by rw [helsewhere]; simp) hnone⟩

/-! ## Before QUIT -/

namespace Session

def unmark (s : Session) : Session := { s with messages := s.messages.unmark }

theorem unmark_dele (messages : Maildrop) (number : ℕ) :
    (messages.dele number).1.unmark = messages.unmark := by
  have hmark : (Maildrop.mark number messages).unmark = messages.unmark := by
    induction messages with
    | nil => rfl
    | cons message rest ih =>
      unfold Maildrop.mark
      split
      · rfl
      · exact congrArg (_ :: ·) ih
  unfold Maildrop.dele
  split
  · split
    · exact hmark
    · rfl
  · rfl

variable (secrets : Directory.Secrets) (policy : Directory.ThrottlePolicy) (lib : Libraries)
  (ip : String) {s : Session}

theorem reads_bodyOf (number : Option ℕ) :
    Reads (machine env.digest) w (fun _ => True) (s.bodyOf number) := by
  have hexec {c : Cmd} (h : (machine env.digest c w).2 = w) :
      Reads (machine env.digest) w (fun _ => True) (exec c) :=
    ⟨_, Prod.ext rfl h, fun _ _ => trivial⟩
  unfold bodyOf
  split
  · refine Reads.bind (Q := fun _ => True) ((hexec rfl).bind fun found _ => ?_)
      fun _ _ => .ret trivial
    cases found with
    | none => exact .ret trivial
    | some metadata =>
      refine (hexec rfl).bind fun raw _ => ?_
      cases raw with
      | none => exact .ret trivial
      | some raw => cases metadata.parts.head? <;> exact .ret trivial
  · exact .ret trivial

/-- A command other than QUIT leaves the store as it is. -/
theorem reads_dispatch (hs : s.state = .transaction) (lines : List Bytes)
    (command : ParsedCommand) (hquit : Verb.fromWord command.verb ≠ .quit) :
    Reads (machine env.digest) w
      (fun turn => turn.lines = lines ∧ turn.flow = none ∧ turn.session.unmark = s.unmark)
      (s.dispatch env secrets policy lib ip lines command) := by
  have hlate : s.state ≠ .authorization := by simp [hs]
  have hopen (turn : Action Turn) : s.inTransaction lines turn = turn := if_pos hs
  have hret (reply : Bytes) : Reads (machine env.digest) w
      (fun turn => turn.lines = lines ∧ turn.flow = none ∧ turn.session.unmark = s.unmark)
      (pure (s.answer lines reply)) := .ret ⟨rfl, rfl, rfl⟩
  unfold dispatch onUser onPass runAuth onStls
  simp only [hopen, if_pos hlate]
  split
  case h_5 => split_ifs <;> first | exact hret _ | simp_all
  case h_8 | h_9 =>
    unfold listing
    split
    · exact hret _
    · split <;> exact hret _
  case h_10 =>
    refine (reads_bodyOf env _).bind fun found _ => ?_
    split <;> exact hret _
  case h_11 =>
    have hslice (raw : Bytes) (range : ByteRange) :
        Reads (machine env.digest) w (fun _ => True) (checked (sliceOf raw range)) := by
      cases sliceOf raw range <;> first | exact .fail | exact .ret trivial
    unfold onTop
    split
    · refine (reads_bodyOf env _).bind fun found _ => ?_
      split
      · exact (hslice _ _).bind fun _ _ => (hslice _ _).bind fun _ _ => hret _
      · exact hret _
    · exact hret _
  case h_12 =>
    unfold onDele
    split
    · exact .ret ⟨rfl, rfl, congrArg (fun messages => { s with messages }) (unmark_dele _ _)⟩
    · exact hret _
  case h_13 =>
    exact .ret ⟨rfl, rfl, by simp [unmark, onRset, answer, Maildrop.rset, Maildrop.unmark]⟩
  case h_16 heq => exact absurd heq hquit
  all_goals exact hret _

/-- Nothing is deleted before a QUIT: whatever else the client sends before it goes away, the
store is as it was, and so is the session up to its marks. -/
theorem kept_without_quit (hs : s.state = .transaction) (lines : List Bytes)
    (hquit : ∀ line ∈ lines,
      Verb.fromWord (parseCommand (lib.utf8Lossy (Smtp.stripCrlf line))).verb ≠ .quit) :
    Reads (machine env.digest) w (fun r => r.2.unmark = s.unmark)
      (s.run env secrets policy lib ip lines) := by
  unfold run
  generalize lines.length + 1 = n
  induction n generalizing s lines with
  | zero => exact .ret rfl
  | succ n ih =>
    cases lines with
    | nil => exact .ret rfl
    | cons line lines =>
      unfold serve
      split
      · exact .fail
      · refine (reads_dispatch env secrets policy lib ip hs lines _
          (hquit line List.mem_cons_self)).bind fun turn hturn => ?_
        obtain ⟨hlines, hflow, hsame⟩ := hturn
        rw [hflow, hlines, ← hsame]
        have hstate : turn.session.state = .transaction := (congrArg state hsame).trans hs
        exact ih hstate lines fun l hl => hquit l (List.mem_cons_of_mem _ hl)

theorem kept_after_dele :
    Reads (machine Env.plain.digest) (worldWith [⟨1, 1⟩])
      (fun r => r.2.unmark = (markingFirst (worldWith [⟨1, 1⟩])).unmark)
      ((markingFirst (worldWith [⟨1, 1⟩])).run Env.plain
        ⟨fun _ _ => .ok true, fun _ => .ok [], fun _ _ _ => .ok true, fun _ _ => .ok true⟩ .default
        ⟨fun _ => none, Smtp.textOf⟩ "" [utf8Bytes "DELE 1\r\n", utf8Bytes "RSET\r\n"]) :=
  kept_without_quit _ _ _ _ _ rfl _ (by decide +kernel)

end Session
end IrixMail.Pop3
