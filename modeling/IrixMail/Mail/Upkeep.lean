import IrixMail.Mail.Revisions

/-!
# Tidy accounts

In a tidy account no two messages share a UID in a mailbox, no UID is above its
counter, and no tombstone is for a message that is there. Operations that run one
after the other keep an account tidy, as long as its numbers fit into 32 bits.
-/

namespace IrixMail.Mail
open Library Prog Store WriteOp Relation

/-- The numbers drawn for the messages of the account fit into 32 bits. -/
def Fits (a : ℕ) (s : Records) : Prop := ∀ k, s.counter (.number a .email k) < 2 ^ 32

def Counted (a : ℕ) (s : Records) : Prop := ∀ k, 0 ≤ s.counter (.number a .email k)

structure Tidy (a : ℕ) (s : Records) : Prop where
  counted : Counted a s
  distinct : ∀ d, Distinct (entriesAt s a d)
  drawn : ∀ d, ∀ e ∈ entriesAt s a d, (e.uid : ℤ) ≤ s.counter (.number a .email e.mailboxId)
  unique : ∀ d d' e, e ∈ entriesAt s a d → e ∈ entriesAt s a d' → d = d'
  placed : ∀ d : ℕ, s.lookup (.data a d) ≠ none → 0 < d ∧ d ≤ emailCounter s a
  buried : ∀ n v, s.lookup (.vanished a n) = some v →
    (v.uid : ℤ) ≤ s.counter (.number a .email v.mailboxId) ∧
      ∀ d, (⟨v.mailboxId, v.uid⟩ : MailboxUid) ∉ entriesAt s a d
  change_le : ∀ n : ℕ, s.lookup (.change a .email n) ≠ none → n ≤ emailCounter s a
  vanished_le : ∀ n : ℕ, s.lookup (.vanished a n) ≠ none → n ≤ emailCounter s a

section Tidy
variable {a : ℕ} {s t : Records}

theorem DrawnUid.bounds {e : MailboxUid} (h : DrawnUid a s t e) (hs : Counted a s)
    (ht : Fits a t) : s.counter (.number a .email e.mailboxId) < e.uid ∧
      (e.uid : ℤ) ≤ t.counter (.number a .email e.mailboxId) := by
  obtain ⟨r, hlow, hhigh, huid⟩ := h
  have h0 := hs e.mailboxId
  have hfit := hhigh.trans_lt (ht e.mailboxId)
  have heq : (e.uid : ℤ) = r := by
    rw [huid]
    unfold intAsU32
    omega
  rw [heq]
  exact ⟨hlow, hhigh⟩

theorem Tidy.advance (h : Tidy a s) (hst : Advances a s t) (hfit : Fits a t) : Tidy a t := by
  have hcounter : emailCounter s a ≤ emailCounter t a := hst.number 0
  -- an entry whose UID was in use before is not a new one
  have hold : ∀ d e, e ∈ entriesAt t a d →
      (e.uid : ℤ) ≤ s.counter (.number a .email e.mailboxId) → e ∈ entriesAt s a d := by
    intro d e he huid
    rcases hst.drawn d e he with hmem | hdrawn
    · exact hmem
    · exact absurd (hdrawn.bounds h.counted hfit).1 (by omega)
  refine ⟨fun k => (h.counted k).trans (hst.number k), fun d => hst.distinct d (h.distinct d),
    fun d e he => ?_, fun d d' e he he' => ?_, fun d hd => ?_, fun n v hv => ?_, fun n hn => ?_,
    fun n hn => ?_⟩
  · rcases hst.drawn d e he with hmem | hdrawn
    · exact (h.drawn d e hmem).trans (hst.number _)
    · exact (hdrawn.bounds h.counted hfit).2
  · by_cases hmem : e ∈ entriesAt s a d
    · exact h.unique d d' e hmem (hold d' e he' (h.drawn d e hmem))
    by_cases hmem' : e ∈ entriesAt s a d'
    · exact h.unique d d' e (hold d e he (h.drawn d' e hmem')) hmem'
    · exact hst.single d d' e e he hmem he' hmem'
  · cases hs : s.lookup (.data a d) with
    | none =>
      obtain ⟨hpos, hle⟩ := hst.placed d hs hd
      exact ⟨hpos, hle.trans hcounter⟩
    | some data =>
      obtain ⟨hpos, hle⟩ := h.placed d (by simp [hs])
      exact ⟨hpos, hle.trans hcounter⟩
  · rcases hst.vanished n with hsame | ⟨-, d, e, he, hgone, heq⟩
    · obtain ⟨huid, hnone⟩ := h.buried n v (hsame.symm.trans hv)
      exact ⟨huid.trans (hst.number _), fun d hmem => hnone d (hold d _ hmem huid)⟩
    · obtain rfl : tombstoneOf e = v := Option.some.inj (heq.symm.trans hv)
      refine ⟨(h.drawn d e he).trans (hst.number _), fun d' hmem => hgone ?_⟩
      rw [h.unique d d' e he (hold d' e hmem (h.drawn d e he))]
      exact hmem
  · rcases hst.change n with hsame | hdrawn
    · exact (h.change_le n (hsame ▸ hn)).trans hcounter
    · exact hdrawn.below (h.counted 0)
  · rcases hst.vanished n with hsame | ⟨hdrawn, -⟩
    · exact (h.vanished_le n (hsame ▸ hn)).trans hcounter
    · exact hdrawn.below (h.counted 0)

def smallNumber : Sigma Val → Bool
  | ⟨.counter (.number _ _ _), n⟩ => decide (n < (2 ^ 32 : ℤ))
  | _ => true

theorem fits_of_entries (h : ∀ row ∈ s.entries, smallNumber row = true) : Fits a s := by
  intro k
  unfold Records.counter
  cases hlookup : s.lookup (.counter (.number a .email k)) with
  | none => simp
  | some n => simpa [smallNumber] using h _ (AList.mem_lookup_iff.1 hlookup)

theorem Fits.of_le (h : Fits a t)
    (hle : ∀ k, s.counter (.number a .email k) ≤ t.counter (.number a .email k)) : Fits a s :=
  fun k => (hle k).trans_lt (h k)

theorem Tidy.reach {S : Records → Records → Prop} (hS : ∀ s t, S s t → Advances a s t)
    (h : Tidy a s) (hst : ReflTransGen S s t) (hfit : Fits a t) : Tidy a t := by
  induction hst with
  | refl => exact h
  | tail _ hstep ih => exact (ih (hfit.of_le (hS _ _ hstep).number)).advance (hS _ _ hstep) hfit

end Tidy

/-! ## Programs made of such operations -/

/-- The numbers only go up in a run of the program, and from a tidy account the run is
made of steps `S`. -/
structure Moves (env : Env) (a : ℕ) (S : Records → Records → Prop) {α : Type} (p : Action α) :
    Prop where
  number_le : ∀ w : World, Counted a w.records → ∀ k, w.records.counter (.number a .email k) ≤
    (p.run (machine env.digest) w).2.records.counter (.number a .email k)
  reaches : ∀ w : World, Tidy a w.records → Fits a (p.run (machine env.digest) w).2.records →
    ReflTransGen S w.records (p.run (machine env.digest) w).2.records

section Moves
variable {env : Env} {a : ℕ} {S : Records → Records → Prop} {α β : Type}

theorem Moves.ret (x : α) : Moves env a S (.ret x : Action α) :=
  ⟨fun _ _ _ => le_rfl, fun _ _ _ => .refl⟩

theorem Moves.of_step (hS : ∀ s t, S s t → Advances a s t) {p : Action α}
    (h : ∀ w : World, Counted a w.records → S w.records (p.run (machine env.digest) w).2.records) :
    Moves env a S p :=
  ⟨fun w hw => (hS _ _ (h w hw)).number, fun w ht _ => .single (h w ht.counted)⟩

theorem Moves.bind (hS : ∀ s t, S s t → Advances a s t) {p : Action α} {f : α → Action β}
    (hp : Moves env a S p) (hf : ∀ x, Moves env a S (f x)) : Moves env a S (p >>= f) := by
  constructor
  · intro w hw k
    have hle := hp.number_le w hw
    rw [run_bind]
    cases hrun : p.run (machine env.digest) w with
    | mk r w' =>
      rw [hrun] at hle
      cases r with
      | error e => exact hle k
      | ok x => exact (hle k).trans ((hf x).number_le w' (fun j => (hw j).trans (hle j)) k)
  · intro w ht hfit
    have hle := hp.number_le w ht.counted
    have hreach := hp.reaches w ht
    rw [run_bind] at hfit ⊢
    cases hrun : p.run (machine env.digest) w with
    | mk r w' =>
      rw [hrun] at hle hreach hfit
      cases r with
      | error e => exact hreach hfit
      | ok x =>
        have hcounted : Counted a w'.records := fun j => (ht.counted j).trans (hle j)
        have hmid : Fits a w'.records := hfit.of_le ((hf x).number_le w' hcounted)
        have hfirst := hreach hmid
        exact hfirst.trans ((hf x).reaches w' (ht.reach hS hfirst hmid) hfit)

theorem Framed.advances_of {s t : Records} (h : Framed a s t) : Advances a s t := h.toAdvances

theorem updateMessage_cases (env : Env) (d : ℕ) {mutate : Mutation} {s : Records} {w : World}
    (hcalm : Calm s w.records) (hpos : 0 ≤ emailCounter s a)
    (hdrawn : ∀ old new, mutate old = .ok new → ∀ e ∈ new.mailboxes,
      e ∈ old.mailboxes ∨ DrawnUid a s w.records e)
    (hdistinct : ∀ old new, mutate old = .ok new → Distinct old.mailboxes → Distinct new.mailboxes) :
    ((updateMessage a d mutate).run (machine env.digest) w).2 = w ∨
      ∃ old new, w.records.lookup (.data a d) = some old ∧ mutate old = .ok new ∧
        Framed a s ((updateMessage a d mutate).run (machine env.digest) w).2.records ∧
        Sets a d (some new) s ((updateMessage a d mutate).run (machine env.digest) w).2.records := by
  refine (updateMessage_idle_or env.digest a d mutate w).imp_right ?_
  rintro ⟨old, new, hold, hmutate⟩
  obtain ⟨w', hrun, hframed, hsets⟩ := run_updateMessage env.digest mutate hcalm hpos hold hmutate
    (hdrawn old new hmutate) (hdistinct old new hmutate)
  rw [hrun]
  exact ⟨old, new, hold, hmutate, hframed, hsets⟩

def Narrows (mutate : Mutation) : Prop :=
  ∀ old new, mutate old = .ok new → new.mailboxes.Sublist old.mailboxes

theorem Narrows.distinct {mutate : Mutation} (h : Narrows mutate) {old new : MessageData}
    (hmutate : mutate old = .ok new) (hd : Distinct old.mailboxes) : Distinct new.mailboxes :=
  hd.sublist ((h old new hmutate).map _)

theorem moves_updateMessage (d : ℕ) {mutate : Mutation} (h : Narrows mutate) :
    Moves env a (Framed a) (updateMessage a d mutate) := by
  refine .of_step (fun _ _ => Framed.advances_of) fun w hw => ?_
  rcases updateMessage_cases env d (Calm.refl w.records) (hw 0)
    (fun old new hm e he => .inl ((h old new hm).subset he)) (fun _ _ => h.distinct) with
    heq | ⟨old, new, -, -, hframed, -⟩
  · rw [heq]
    exact (Still.refl _).framed a
  · exact hframed

/-! ## Filing under a new document id -/

theorem moves_filing {file : ℕ → Action α}
    (hnumber : ∀ (d : ℕ) (w : World) (k : ℕ), w.records.counter (.number a .email k) ≤
      ((file d).run (machine env.digest) w).2.records.counter (.number a .email k))
    (hfiled : ∀ (d : ℕ) (w : World), w.records.lookup (.data a d) = none →
      0 < d ∧ (d : ℤ) ≤ emailCounter w.records a →
      FilesAlone a d w.records ((file d).run (machine env.digest) w).2.records) :
    Moves env a (Framed a) (allocateDocumentId a >>= file) := by
  have hrun : ∀ w : World, (allocateDocumentId a >>= file).run (machine env.digest) w =
      (file (intAsU32 (emailCounter w.records a + 1))).run (machine env.digest)
        { w with records := (WriteOp.add (.number a .email 0) 1).apply w.records } := fun _ => rfl
  have hnext : ∀ s : Records, emailCounter ((WriteOp.add (.number a .email 0) 1).apply s) a =
      emailCounter s a + 1 := by
    intro s
    unfold emailCounter
    rw [WriteOp.counter_apply (WriteOp.additive_add _ _), WriteOp.amountAt, if_pos rfl]
  constructor
  · intro w _ k
    exact ((calm_draw w.records a .email 0).number a .email k).trans (hnumber _ _ k)
  · intro w ht hfit
    rw [hrun] at hfit ⊢
    have hcalm := calm_draw w.records a .email 0
    have hpos : 0 ≤ emailCounter w.records a := ht.counted 0
    have hlt : emailCounter w.records a + 1 < 2 ^ 32 := by
      rw [← hnext]
      exact (hnumber _ { w with records := (WriteOp.add (.number a .email 0) 1).apply w.records }
        0).trans_lt (hfit 0)
    have hd : (intAsU32 (emailCounter w.records a + 1) : ℤ) = emailCounter w.records a + 1 := by
      unfold intAsU32
      omega
    generalize intAsU32 (emailCounter w.records a + 1) = d at hd hfit ⊢
    have hvacant : w.records.lookup (.data a d) = none := by
      by_contra hsome
      exact absurd (ht.placed d hsome).2 (by omega)
    have hfile := hfiled d { w with records := (WriteOp.add (.number a .email 0) 1).apply w.records }
      ((hcalm.data a d).trans hvacant) ⟨by omega, by rw [hnext]; omega⟩
    refine ReflTransGen.head (hcalm.still.framed a) (.single ?_)
    rcases hfile with hstill | ⟨hframed, -⟩
    · exact hstill.framed a
    · exact hframed

end Moves
end IrixMail.Mail
