import IrixMail.Imap.UidOrder

/-!
# Commands that only read

SELECT, NOOP and the reads of a FETCH write nothing but the numbers they draw.
-/

namespace IrixMail.Imap
open Library Prog Store WriteOp Mail Relation

section Quiet
variable {α β : Type}

theorem leadsTo_bind {p : Action α} {f : α → Action β} (hp : LeadsTo Quiet Idle p)
    (hf : ∀ x, LeadsTo Quiet Idle (f x)) : LeadsTo Quiet Idle (p >>= f) := by
  induction hp with
  | here hs =>
    rcases hs with ⟨x, rfl⟩ | ⟨e, rfl⟩
    · exact hf x
    · exact .here (.inr ⟨e, rfl⟩)
  | call hq _ ih => exact .call hq ih

theorem leadsTo_pure (x : α) : LeadsTo Quiet Idle (pure x : Action α) := .here (.inl ⟨x, rfl⟩)

theorem leadsTo_checked (x : Except Error α) : LeadsTo Quiet Idle (checked x) := by
  cases x with
  | error e => exact .here (.inr ⟨e, rfl⟩)
  | ok y => exact leadsTo_pure y

theorem leadsTo_of_yields {P : α → Prop} {p : Action α} (h : Yields Quiet P p) :
    LeadsTo Quiet Idle p :=
  LeadsTo.mono (fun _ ⟨x, hq, _⟩ => .inl ⟨x, hq⟩) h

theorem leadsTo_caught {p : Action α} (h : LeadsTo Quiet Idle p) :
    LeadsTo Quiet Idle (caught p) := by
  have hattempt : LeadsTo Quiet Idle p.attempt := by
    induction h with
    | here hs =>
      rcases hs with ⟨x, rfl⟩ | ⟨e, rfl⟩
      · exact .here (.inl ⟨_, rfl⟩)
      · exact .here (.inl ⟨_, rfl⟩)
    | call hq _ ih => exact .call hq ih
  refine leadsTo_bind hattempt fun r => ?_
  split
  · exact .here (.inr ⟨_, rfl⟩)
  · exact leadsTo_pure _

end Quiet

/-! ## Reads -/

theorem leadsTo_modseqMap (a : ℕ) : LeadsTo Quiet Idle (modseqMap a) := by
  refine leadsTo_bind ?_ fun _ => leadsTo_pure _
  unfold ChangeLog.changesPage
  rw [if_neg (by simp)]
  exact leadsTo_exec trivial fun _ => leadsTo_checked _

theorem leadsTo_vanishedSince (a since : ℕ) :
    LeadsTo Quiet Idle (ChangeLog.vanishedSince a since) :=
  leadsTo_exec trivial fun _ => leadsTo_checked _

theorem leadsTo_lastUid (a k : ℕ) : LeadsTo Quiet Idle (lastUid a k) :=
  leadsTo_exec trivial fun _ => leadsTo_pure _

namespace Session
variable (s : Session)

theorem leadsTo_mailboxNamed (name : String) : LeadsTo Quiet Idle (s.mailboxNamed name) :=
  leadsTo_of_yields (s.yields_mailboxNamed name)

theorem leadsTo_members (mailboxId : ℕ) : LeadsTo Quiet Idle (s.members mailboxId) :=
  leadsTo_of_yields (s.yields_members mailboxId)

theorem leadsTo_inSelected {α : Type} (otherwise : α) {f : Mailbox → Action α}
    (hf : ∀ mailbox, LeadsTo Quiet Idle (f mailbox)) :
    LeadsTo Quiet Idle (s.inSelected otherwise f) := by
  unfold inSelected
  split
  · exact leadsTo_pure _
  · refine leadsTo_bind (s.leadsTo_mailboxNamed _) fun found => ?_
    cases found with
    | none => exact leadsTo_pure _
    | some mailbox => exact hf mailbox

theorem leadsTo_selectView (mailbox : Mailbox) : LeadsTo Quiet Idle (s.selectView mailbox) := by
  refine leadsTo_bind (s.leadsTo_members mailbox.id) fun _ => ?_
  refine leadsTo_bind (leadsTo_lastUid _ _) fun _ => ?_
  refine leadsTo_bind ?_ fun _ => leadsTo_pure _
  refine leadsTo_bind (leadsTo_caught (leadsTo_exec trivial fun _ => leadsTo_pure _)) fun found => ?_
  cases found <;> exact leadsTo_pure _

theorem leadsTo_pushNewMail : LeadsTo Quiet Idle s.pushNewMail := by
  unfold pushNewMail
  split
  · exact leadsTo_pure _
  · refine s.leadsTo_inSelected _ fun mailbox => ?_
    refine leadsTo_bind (s.leadsTo_selectView mailbox) fun view => ?_
    split <;> exact leadsTo_pure _

theorem leadsTo_qresyncReplay (mailbox : Mailbox) (qresync : QresyncParam) :
    LeadsTo Quiet Idle (s.qresyncReplay mailbox qresync) := by
  unfold qresyncReplay
  split
  · exact leadsTo_pure _
  · refine leadsTo_bind (leadsTo_vanishedSince _ _) fun _ => ?_
    refine leadsTo_bind (leadsTo_modseqMap _) fun _ => ?_
    exact leadsTo_bind (s.leadsTo_members _) fun _ => leadsTo_pure _

theorem leadsTo_modseqsFor (wanted : Bool) : LeadsTo Quiet Idle (s.modseqsFor wanted) := by
  unfold modseqsFor
  split
  · exact leadsTo_bind (leadsTo_modseqMap _) fun _ => leadsTo_pure _
  · exact leadsTo_pure _

theorem leadsTo_changedFloorOf (mods : Option FetchMods) :
    LeadsTo Quiet Idle (s.changedFloorOf mods) := by
  cases mods with
  | none => exact leadsTo_pure _
  | some mods => exact leadsTo_bind (leadsTo_bind (leadsTo_exec trivial fun _ =>
      leadsTo_pure _) fun _ => leadsTo_pure _) fun _ => leadsTo_pure _

theorem leadsTo_fetchVanished (mailbox : Mailbox) (ranges : List SeqRange) (largest : ℕ)
    (mods : Option FetchMods) : LeadsTo Quiet Idle (s.fetchVanished mailbox ranges largest mods) := by
  cases mods with
  | none => exact leadsTo_pure _
  | some mods =>
    unfold fetchVanished
    dsimp only
    split
    · exact leadsTo_pure _
    · exact leadsTo_bind (leadsTo_vanishedSince _ _) fun _ => leadsTo_pure _

theorem leadsTo_runSelect (name : String) (params : SelectParams) (examine : Bool) :
    LeadsTo Quiet Idle (s.runSelect name params examine) := by
  refine leadsTo_bind (s.leadsTo_mailboxNamed name) fun found => ?_
  cases found with
  | none => exact leadsTo_pure _
  | some mailbox =>
    dsimp only
    split
    · exact leadsTo_pure _
    · refine leadsTo_bind (leadsTo_selectView _ mailbox) fun view => ?_
      cases params.qresync with
      | none => exact leadsTo_pure _
      | some qresync =>
        exact leadsTo_bind (leadsTo_qresyncReplay _ mailbox qresync) fun _ => leadsTo_pure _

end Session
end IrixMail.Imap
