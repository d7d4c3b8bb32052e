import IrixMail.Library.Triples
import IrixMail.Mail.Clients
import IrixMail.Mail.Revisions

/-!
# Operations on one message

Filing, updating and removing a message write its record and an entry of the log for
it; the records and the entries of all other messages stay. What a command does to the
messages of an account is told from what it does to each of them.
-/

namespace IrixMail.Mail
open Library Prog Store WriteOp

/-- The record of one message becomes `new`, and new entries of the log are about it. -/
structure Touches (a d : ℕ) (new : Option MessageData) (s t : Records) : Prop where
  data : ∀ b e, t.lookup (.data b e) =
    if Loc.data b e = .data a d then new else s.lookup (.data b e)
  change : ∀ b n, t.lookup (.change b .email n) = s.lookup (.change b .email n) ∨
    b = a ∧ ∃ kind, t.lookup (.change b .email n) = some ⟨d, kind⟩
  counter : emailCounter s a ≤ emailCounter t a

section Batches
variable {a d n : ℕ} {new : Option MessageData} {vanished : List WriteOp} {s t u : Records}

theorem touches_of_batch (n : ℕ) (kind : ChangeKind) (hcalm : Calm s t)
    (hself : u.lookup (.data a d) = new)
    (hothers : ∀ b e, Loc.data b e ≠ .data a d → u.lookup (.data b e) = t.lookup (.data b e))
    (hchange : ∀ b m, u.lookup (.change b .email m) =
      if Loc.change b .email m = .change a .email n then some (ChangeValue.mk d kind)
      else t.lookup (.change b .email m))
    (hcounter : emailCounter u a = emailCounter t a) : Touches a d new s u := by
  refine ⟨fun b e => ?_, fun b m => ?_, (hcalm.number a .email 0).trans_eq hcounter.symm⟩
  · split
    next heq =>
      obtain ⟨rfl, rfl⟩ := Loc.data.inj heq
      exact hself
    next hne => exact (hothers b e hne).trans (hcalm.data b e)
  · rw [hchange b m]
    split
    next heq => exact .inr ⟨(Loc.change.inj heq).1, kind, rfl⟩
    next => exact .inl (hcalm.lookup _ (by simp))

theorem touches_filed {metadata : MessageMetadata} {data : MessageData} {size : ℕ}
    {threading index : List WriteOp} (hthread : ThreadOps a threading)
    (hindex : PostingOps a index) (hcalm : Calm s t) :
    Touches a d (some data) s (t.batch (filingBatch a d n metadata data size threading index)) := by
  refine touches_of_batch n .insert hcalm (lookup_filed_data hthread hindex) (fun b e hne => ?_)
    (lookup_change_of_batch (within_filingOps hthread hindex) (by simp) t a d n .insert) ?_
  · exact lookup_filed_of_ne hthread hindex (by simp) hne (by simp)
  · simp [emailCounter, counter_filed hthread hindex]

theorem touches_updated {data : MessageData} (hvanished : VanishedOps a vanished)
    (hcalm : Calm s t) :
    Touches a d (some data) s (t.batch (updateBatch a d n data vanished)) := by
  have hhead : Within [.data, .vanished] ([.set (.data a d) data] ++ vanished) :=
    (within_nil.cons (by simp)).append (hvanished.within.mono (by simp))
  refine touches_of_batch n .update hcalm ?_ (fun b e hne => ?_)
    (lookup_change_of_batch hhead (by simp) t a d n .update) ?_
  · rw [Records.lookup_batch, effects_updateBatch_data hvanished, if_pos rfl]
  · rw [Records.lookup_batch, effects_updateBatch_data hvanished, if_neg hne.symm]
  · unfold emailCounter Records.counter
    rw [Records.lookup_batch_within (within_updateBatch hvanished) (by simp)]

theorem touches_removed {size : ℕ} {linked : List WriteOp} {held : Option MessageMetadata}
    (hlinked : UnlinkOps a held linked) (hvanished : VanishedOps a vanished) (hcalm : Calm s t) :
    Touches a d none s
      ((t.batch (removalBatch a d n size linked vanished)).batch (releaseOps held)) := by
  refine touches_of_batch n .delete hcalm ?_ (fun b e hne => ?_) (fun b m => ?_) ?_
  · rw [lookup_released (by simp)]
    exact lookup_removed_data hvanished
  · rw [lookup_released (by simp)]
    exact lookup_removed_of_ne hlinked hvanished (by simp) hne (by simp)
  · rw [lookup_released (by simp)]
    exact lookup_change_of_batch (within_removalOps hlinked hvanished) (by simp) t a d n .delete b m
  · rw [emailCounter, counter_released, counter_removed hlinked hvanished]
    cases held <;> simp [emailCounter]

end Batches

/-! ## The operations -/

section Operations
variable (env : Env)

theorem touches_updateMessage (a d : ℕ) (mutate : Mutation) (w : World) :
    ((updateMessage a d mutate).run (machine env.digest) w).2.records = w.records ∨
      ∃ old new, w.records.lookup (.data a d) = some old ∧ mutate old = .ok new ∧
        Touches a d (some new) w.records
          ((updateMessage a d mutate).run (machine env.digest) w).2.records := by
  rcases updateMessage_idle_or env.digest a d mutate w with hidle | ⟨old, new, hold, hmutate⟩
  · exact .inl (congrArg World.records hidle)
  · obtain ⟨n, vanished, t, hvanished, -, hcalm, -, hrun⟩ :=
      run_updateMessage_some env.digest hold hmutate
    rw [hrun]
    exact .inr ⟨old, new, hold, hmutate, touches_updated hvanished hcalm⟩

theorem touches_deleteMessage (a d : ℕ) (w : World) :
    ((deleteMessage env a d).run (machine env.digest) w).2.records = w.records ∨
      w.records.lookup (.data a d) ≠ none ∧ Touches a d none w.records
        ((deleteMessage env a d).run (machine env.digest) w).2.records := by
  cases hold : w.records.lookup (.data a d) with
  | none =>
    rw [run_deleteMessage_none env hold]
    exact .inl rfl
  | some old =>
    obtain ⟨n, linked, vanished, t, hcalm, hlinked, hvanished, -, -, -, heq⟩ :=
      run_deleteMessage_some env hold
    rw [heq]
    exact .inr ⟨by simp, touches_removed hlinked hvanished hcalm⟩

theorem touches_appendMessage (request : AppendRequest) (w : World) :
    Calm w.records ((appendMessage env request).run (machine env.digest) w).2.records ∨
      ∃ data, Touches request.account.mailId request.documentId (some data) w.records
        ((appendMessage env request).run (machine env.digest) w).2.records := by
  obtain ⟨q, u, hq, hcalm, hrun⟩ := run_leadsTo env.digest (appendMessage_leadsTo env request) w
  rw [hrun]
  rcases hq with (⟨x, rfl⟩ | ⟨e, rfl⟩) | hfiles
  · exact .inl hcalm
  · exact .inl hcalm
  · obtain ⟨t, n, metadata, data, threading, index, hcalm', -, -, hthread, hindex, -, heq⟩ :=
      records_filesBody env hfiles u
    rw [heq]
    exact .inr ⟨data, touches_filed hthread hindex (hcalm.trans hcalm')⟩

end Operations

/-! ## Commands made of them -/

def IsMessageRow : Loc → Prop
  | .data _ _ => True
  | .change _ .email _ => True
  | _ => False

/-- From `s` to `t` a message of the account changed, or got an entry of the log, only
when `may` allows what became of it; the messages of other accounts stay. -/
structure Revised (a : ℕ) (may : ℕ → Option MessageData → Option MessageData → Prop)
    (s t : Records) : Prop where
  data : ∀ b d, t.lookup (.data b d) = s.lookup (.data b d) ∨
    b = a ∧ may d (s.lookup (.data a d)) (t.lookup (.data a d))
  change : ∀ b n, t.lookup (.change b .email n) = s.lookup (.change b .email n) ∨
    b = a ∧ ∃ d kind, t.lookup (.change a .email n) = some ⟨d, kind⟩ ∧
      may d (s.lookup (.data a d)) (t.lookup (.data a d))

section Revised
variable {a : ℕ} {may : ℕ → Option MessageData → Option MessageData → Prop} {s t u : Records}

theorem Revised.refl (s : Records) : Revised a may s s :=
  ⟨fun _ _ => .inl rfl, fun _ _ => .inl rfl⟩

theorem Revised.mono {may' : ℕ → Option MessageData → Option MessageData → Prop}
    (h : Revised a may s t) (hmay : ∀ d x y, may d x y → may' d x y) : Revised a may' s t :=
  ⟨fun b d => (h.data b d).imp_right (.imp_right (hmay _ _ _)), fun b n =>
    (h.change b n).imp_right fun ⟨hb, d, kind, hn, hd⟩ => ⟨hb, d, kind, hn, hmay _ _ _ hd⟩⟩

theorem Revised.trans_same (h : Revised a may s t)
    (hsame : ∀ l, IsMessageRow l → u.lookup l = t.lookup l) : Revised a may s u := by
  have hdata : ∀ b d, u.lookup (.data b d) = t.lookup (.data b d) := fun b d => hsame _ trivial
  have hchange : ∀ b n, u.lookup (.change b .email n) = t.lookup (.change b .email n) :=
    fun b n => hsame _ trivial
  refine ⟨fun b d => ?_, fun b n => ?_⟩
  · rw [hdata, hdata]
    exact h.data b d
  · simp only [hdata, hchange]
    exact h.change b n

theorem Revised.trans_calm (h : Revised a may s t) (h' : Calm t u) : Revised a may s u :=
  h.trans_same fun l hl => h'.lookup l fun _ _ _ hloc => by
    subst hloc
    exact hl

theorem Revised.touch {d : ℕ} {new : Option MessageData} (h : Revised a may s t)
    (h' : Touches a d new t u) (hmay : may d (s.lookup (.data a d)) new) : Revised a may s u := by
  have hself : u.lookup (.data a d) = new := (h'.data a d).trans (if_pos rfl)
  have hother : ∀ e, e ≠ d → u.lookup (.data a e) = t.lookup (.data a e) := fun e he =>
    (h'.data a e).trans (if_neg (by simpa using he))
  -- what was allowed of a message before is replaced by what is allowed now
  have hkept : ∀ e, may e (s.lookup (.data a e)) (t.lookup (.data a e)) →
      may e (s.lookup (.data a e)) (u.lookup (.data a e)) := by
    intro e he
    by_cases hed : e = d
    · subst hed
      rw [hself]
      exact hmay
    · rw [hother e hed]
      exact he
  refine ⟨fun b e => ?_, fun b n => ?_⟩
  · by_cases heq : Loc.data b e = .data a d
    · obtain ⟨rfl, rfl⟩ := Loc.data.inj heq
      exact .inr ⟨rfl, hself.symm ▸ hmay⟩
    · rw [h'.data b e, if_neg heq]
      exact (h.data b e).imp_right (.imp_right (hkept e))
  · rcases h'.change b n with hsame | ⟨rfl, kind, hn⟩
    · refine (h.change b n).imp hsame.trans ?_
      rintro ⟨rfl, e, kind, hn, he⟩
      exact ⟨rfl, e, kind, hsame.trans hn, hkept e he⟩
    · exact .inr ⟨rfl, d, kind, hn, hself.symm ▸ hmay⟩

end Revised

/-! ## Commands that leave the messages alone -/

/-- No record of a message is written, nor their log. -/
def Aside (_ : Trace sig) (c : Cmd) : Prop := ∀ op ∈ c.writes, ¬ IsMessageRow op.loc

theorem aside_of_quiet {t : Trace sig} {c : Cmd} (h : Quiet c) : Aside t c := by
  intro op hop hrow
  have hkind : op.loc.kind = .number := List.mem_singleton.1 (within_of_quiet h op hop)
  revert hkind hrow
  generalize op.loc = l
  intro hrow hkind
  cases l <;> first | exact hrow | exact absurd hkind (by simp)

theorem lookup_of_aside {α : Type} {E : Trace sig → Prop} {Q : Trace sig → α → Prop}
    {p : Action α} (env : Env) {t : Trace sig} (h : Obeys Aside E Q t p) (w : World) {l : Loc}
    (hl : IsMessageRow l) :
    (p.run (machine env.digest) w).2.records.lookup l = w.records.lookup l := by
  refine h.run_rel (machine env.digest)
    (R := fun w w' => w'.records.lookup l = w.records.lookup l) (fun _ => rfl)
    (fun _ _ _ h h' => h'.trans h) (fun t c u hc => ?_) w
  exact lookup_machine_of_ne env.digest fun op hop hloc =>
    hc op (Cmd.writes_of_written hop) (hloc ▸ hl)

section Mailboxes
variable {α : Type} {E : Trace sig → Prop} {Q : Trace sig → α → Prop}

theorem aside_recordMailbox {a mailboxId : ℕ} {kind : ChangeKind} {op : WriteOp}
    (hop : ¬ IsMessageRow op.loc) {x : α} (hx : ∀ u, Q u x) (t : Trace sig) :
    Obeys Aside E Q t (do
      let (_, change) ← ChangeLog.recordOp a .mailbox mailboxId kind
      exec (.batch [op, change])
      pure x) := by
  refine .call (aside_of_quiet (by rfl)) fun r => .call ?_ fun _ => .ret (hx _)
  intro op' hop'
  rcases List.mem_cons.1 hop' with rfl | hop'
  · exact hop
  · rw [List.mem_singleton.1 hop']
    exact id

theorem aside_loadMailboxes (a : ℕ) (t : Trace sig) :
    Obeys Aside E (fun _ _ => True) t (loadMailboxes a) :=
  .call (aside_of_quiet trivial) fun _ => .ret trivial

theorem aside_allocateMailboxId (a : ℕ) (t : Trace sig) :
    Obeys Aside E (fun _ _ => True) t (allocateMailboxId a) := by
  have hdraw : ∀ (u : Trace sig) (n : ℤ),
      Aside u (.addAndGet (.number a .mailbox mailboxIdCounter) n) := by
    intro u n op hop
    rw [List.mem_singleton.1 hop]
    exact id
  refine .call (hdraw _ _) fun next => (aside_loadMailboxes a _).bind fun u mailboxes _ => ?_
  dsimp only
  split
  · exact .ret trivial
  · exact .call (hdraw _ _) fun _ => .ret trivial

theorem aside_createMailbox (a : ℕ) (name : String) (uidValidity : ℕ) (t : Trace sig) :
    Obeys Aside E (fun _ _ => True) t (createMailbox a name uidValidity) :=
  (aside_allocateMailboxId a t).bind fun u _ _ => aside_recordMailbox id (fun _ => trivial) u

theorem aside_renameMailbox (a mailboxId : ℕ) (newName : String) (t : Trace sig) :
    Obeys Aside E (fun _ _ => True) t (renameMailbox a mailboxId newName) := by
  refine (aside_loadMailboxes a t).bind fun u mailboxes _ => ?_
  split
  · exact .ret trivial
  · exact aside_recordMailbox id (fun _ => trivial) _

end Mailboxes

/-! ## Programs -/

/-- Run from a state that `s` was revised to, the program only revises it further. -/
abbrev Revises (env : Env) (a : ℕ) (may : ℕ → Option MessageData → Option MessageData → Prop)
    (s : Records) {α : Type} (p : Action α) : Prop :=
  Ensures (machine env.digest) (fun w => Revised a may s w.records)
    (fun _ w => Revised a may s w.records) (fun w => Revised a may s w.records) p

section Programs
variable {env : Env} {α : Type} {a : ℕ}
  {may : ℕ → Option MessageData → Option MessageData → Prop} {s : Records}

theorem revises_ret (x : α) : Revises env a may s (.ret x) := .ret fun _ h => h

theorem revises_quiet {p : Action α} (h : LeadsTo Quiet Idle p) : Revises env a may s p := by
  refine .of_run fun w hw => ?_
  obtain ⟨q, u, hq, hcalm, hrun⟩ := run_leadsTo env.digest h w
  rw [hrun]
  rcases hq with ⟨x, rfl⟩ | ⟨e, rfl⟩ <;> exact hw.trans_calm hcalm

theorem revises_aside {E : Trace sig → Prop} {Q : Trace sig → α → Prop} {p : Action α}
    {t : Trace sig} (h : Obeys Aside E Q t p) : Revises env a may s p :=
  .of_run fun w hw => hw.trans_same fun _ => lookup_of_aside env h w

theorem revises_updateMessage (d : ℕ) {mutate : Mutation}
    (h : ∀ cur new, mutate cur = .ok new → s.lookup (.data a d) = some cur ∨
      may d (s.lookup (.data a d)) (some cur) → may d (s.lookup (.data a d)) (some new)) :
    Revises env a may s (updateMessage a d mutate) := by
  refine .of_run fun w hw => ?_
  rcases touches_updateMessage env a d mutate w with hsame | ⟨cur, new, hcur, hnew, htouch⟩
  · rw [hsame]
    exact hw
  · have hbefore := hw.data a d
    rw [hcur] at hbefore
    exact hw.touch htouch (h cur new hnew (hbefore.imp Eq.symm And.right))

theorem revises_deleteMessage (d : ℕ) (h : may d (s.lookup (.data a d)) none) :
    Revises env a may s (deleteMessage env a d) := by
  refine .of_run fun w hw => ?_
  rcases touches_deleteMessage env a d w with hsame | ⟨-, htouch⟩
  · rw [hsame]
    exact hw
  · exact hw.touch htouch h

end Programs
end IrixMail.Mail
