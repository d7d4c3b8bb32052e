import IrixMail.Mail.Batches

/-!
# Mail operations announce what they change

Every mail operation that changes the messages of an account writes an entry of
the change log for each of them, under an id newly drawn from the sequence of
the account.
-/

namespace IrixMail.Mail
open Library Prog Store WriteOp

/-- Between the states the messages of `a` changed only with an entry of the log
under a newly drawn id. -/
structure Announces (a : ℕ) (s t : Records) : Prop where
  counter_le : emailCounter s a ≤ emailCounter t a
  floor : t.lookup (.floor a .email) = s.lookup (.floor a .email)
  change : ∀ n, t.lookup (.change a .email n) = s.lookup (.change a .email n) ∨
    Drawn a n s t ∧ ∃ v, t.lookup (.change a .email n) = some v ∧
      (v.kind = .delete → t.lookup (.data a v.documentId) = none)
  data : ∀ d, t.lookup (.data a d) = s.lookup (.data a d) ∨
    ∃ n kind, Drawn a n s t ∧ t.lookup (.change a .email n) = some ⟨d, kind⟩

theorem Calm.announces {s t : Records} (h : Calm s t) (a : ℕ) : Announces a s t :=
  ⟨h.number a .email 0, h.lookup _ (by simp), fun _ => .inl (h.lookup _ (by simp)),
    fun d => .inl (h.data a d)⟩

section Step
variable {digest : Digest} {F : ℕ → ℕ → Bytes → Prop}
  {P : MessageData → MessageData → Prop} {s t u : Records}

/-- A batch that writes one change entry and touches the records of no other
document announces what it does. -/
theorem announces_of_batch {b n : ℕ} (d : ℕ) (kind : ChangeKind) (hcalm : Calm s t)
    (hn : Drawn b n s t) (hcounter : ∀ a, emailCounter u a = emailCounter t a)
    (hfloor : ∀ a, u.lookup (.floor a .email) = t.lookup (.floor a .email))
    (hentry : u.lookup (.change b .email n) = some ⟨d, kind⟩)
    (hchange : ∀ a m, Loc.change a .email m ≠ .change b .email n →
      u.lookup (.change a .email m) = t.lookup (.change a .email m))
    (hdata : ∀ a e, Loc.data a e ≠ .data b d → u.lookup (.data a e) = t.lookup (.data a e))
    (hdelete : kind = .delete → u.lookup (.data b d) = none) (a : ℕ) : Announces a s u := by
  have hdrawn : Drawn b n s u :=
    ⟨hn.pos, hn.above, fun h0 => (hn.below h0).trans_eq (hcounter b).symm⟩
  refine ⟨?_, ?_, fun m => ?_, fun e => ?_⟩
  · exact (hcalm.number a .email 0).trans_eq (hcounter a).symm
  · exact (hfloor a).trans (hcalm.lookup _ (by simp))
  · by_cases heq : Loc.change a .email m = .change b .email n
    · obtain ⟨rfl, -, rfl⟩ := Loc.change.inj heq
      exact .inr ⟨hdrawn, _, hentry, hdelete⟩
    · exact .inl ((hchange a m heq).trans (hcalm.lookup _ (by simp)))
  · by_cases heq : Loc.data a e = .data b d
    · obtain ⟨rfl, rfl⟩ := Loc.data.inj heq
      exact .inr ⟨n, kind, hdrawn, hentry⟩
    · exact .inl ((hdata a e heq).trans (hcalm.data a e))

theorem lookup_change_of_batch {K : List LocKind} {ops : List WriteOp} (hops : Within K ops)
    (hK : .change ∉ K) (t : Records) (b d n : ℕ) (kind : ChangeKind) (a m : ℕ) :
    (t.batch (ops ++ [changeOp b d n kind])).lookup (.change a .email m) =
      if Loc.change a .email m = .change b .email n then some (ChangeValue.mk d kind)
      else t.lookup (.change a .email m) := by
  rw [Records.lookup_batch, effects_append, hops.effects_eq (l := .change a .email m) hK]
  split
  next heq =>
    obtain ⟨rfl, -, rfl⟩ := Loc.change.inj heq
    exact effect_set_self _ _ _
  next hne => exact effect_set_of_ne (Ne.symm hne) _ _

section Updates
variable {a lo : ℕ} {ops : List WriteOp}

theorem effects_updateBatch_change {d m : ℕ} {data : MessageData} {vanished : List WriteOp}
    (hvanished : VanishedOps a vanished) (n : ℕ) (x : Option ChangeValue) :
    effects (.change a .email n)
      (updateBatch a d m data vanished) x = if m = n then some ⟨d, .update⟩ else x := by
  have hhead : Within [.data, .vanished] ([.set (.data a d) data] ++ vanished) :=
    (within_nil.cons (by simp)).append (hvanished.within.mono (by simp))
  rw [updateBatch, effects_append, hhead.effects_eq (by simp)]
  split
  next heq =>
    subst heq
    exact effect_set_self _ _ _
  next hne => exact effect_set_of_ne (by simpa using hne) _ _

theorem UpdateOps.effects_change_of_le (h : UpdateOps P a s t lo ops) {n : ℕ} (hn : n ≤ lo)
    (x : Option ChangeValue) : effects (.change a .email n) ops x = x := by
  induction h generalizing x with
  | nil lo => rfl
  | @cons lo d m original data vanished rest hdata hP hvanished hlo hm _ ih =>
    rw [effects_append, effects_updateBatch_change hvanished, if_neg (by omega)]
    exact ih (hn.trans hlo.le) x

theorem UpdateOps.effects_change (h : UpdateOps P a s t lo ops) (n : ℕ)
    (x : Option ChangeValue) :
    effects (.change a .email n) ops x = x ∨
      Drawn a n s t ∧ ∃ d, effects (.change a .email n) ops x = some ⟨d, .update⟩ := by
  induction h generalizing x with
  | nil lo => exact .inl rfl
  | @cons lo d m original data vanished rest hdata hP hvanished hlo hm hrest ih =>
    rw [effects_append, effects_updateBatch_change hvanished]
    by_cases heq : m = n
    · subst heq
      rw [if_pos rfl, hrest.effects_change_of_le le_rfl]
      exact .inr ⟨hm, d, rfl⟩
    · rw [if_neg heq]
      exact ih x

theorem UpdateOps.effects_data (h : UpdateOps P a s t lo ops) (d : ℕ) (x : Option MessageData) :
    effects (.data a d) ops x = x ∨
      ∃ n, Drawn a n s t ∧
        ∀ y, effects (.change a .email n) ops y = some ⟨d, .update⟩ := by
  induction h generalizing x with
  | nil lo => exact .inl rfl
  | @cons lo e m original data vanished rest hdata hP hvanished hlo hm hrest ih =>
    by_cases heq : e = d
    · subst heq
      refine .inr ⟨m, hm, fun y => ?_⟩
      rw [effects_append, effects_updateBatch_change hvanished, if_pos rfl,
        hrest.effects_change_of_le le_rfl]
    · rw [effects_append, effects_updateBatch_data hvanished, if_neg (by simpa using heq)]
      rcases ih x with hsame | ⟨n, hn, hnamed⟩
      · exact .inl hsame
      · refine .inr ⟨n, hn, fun y => ?_⟩
        rw [effects_append, hnamed]

theorem UpdateOps.announces (h : UpdateOps P a s t lo ops) (hcalm : Calm s t) (b : ℕ) :
    Announces b s (t.batch ops) := by
  have hcounter : ∀ c, emailCounter (t.batch ops) c = emailCounter t c := by
    intro c
    unfold emailCounter Records.counter
    rw [lookup_updated_of_ne h (by simp) (by simp) (by simp)]
  refine ⟨(hcalm.number b .email 0).trans_eq (hcounter b).symm, ?_, fun n => ?_, fun d => ?_⟩
  · rw [lookup_updated_of_ne h (by simp) (by simp) (by simp)]
    exact hcalm.lookup _ (by simp)
  · by_cases hab : b = a
    · subst hab
      rw [Records.lookup_batch]
      rcases h.effects_change n (t.lookup (.change b .email n)) with hsame | ⟨hn, d, hentry⟩
      · exact .inl (hsame.trans (hcalm.lookup _ (by simp)))
      · exact .inr ⟨⟨hn.pos, hn.above, fun h0 => (hn.below h0).trans_eq (hcounter b).symm⟩, _, hentry,
          by simp⟩
    · rw [lookup_updated_of_ne h (by simp) (by simp) (by simp [hab])]
      exact .inl (hcalm.lookup _ (by simp))
  · by_cases hab : b = a
    · subst hab
      rw [Records.lookup_batch]
      rcases h.effects_data d (t.lookup (.data b d)) with hsame | ⟨n, hn, hnamed⟩
      · exact .inl (hsame.trans (hcalm.data b d))
      · refine .inr ⟨n, .update,
          ⟨hn.pos, hn.above, fun h0 => (hn.below h0).trans_eq (hcounter b).symm⟩, ?_⟩
        rw [Records.lookup_batch, hnamed]
    · rw [lookup_updated_of_ne h (by simp [hab]) (by simp) (by simp)]
      exact .inl (hcalm.data b d)

end Updates

theorem MailStep.announces (h : MailStep digest F P s t) (a : ℕ) : Announces a s t := by
  cases h with
  | calm h => exact h.announces a
  | @file t b d n raw metadata data threading index hfiled h hhash hsize hthread hindex hn =>
    have hlog : ∀ a m, (t.batch (filingBatch b d n metadata data raw.length threading index)).lookup
        (.change a .email m) = if Loc.change a .email m = .change b .email n then
          some (ChangeValue.mk d .insert) else t.lookup (.change a .email m) :=
      lookup_change_of_batch (within_filingOps hthread hindex) (by simp) t b d n .insert
    refine announces_of_batch d .insert h hn (fun c => ?_) (fun c => ?_) ?_ (fun c m hne => ?_)
      (fun c e hne => ?_) (by simp) a
    · simp [emailCounter, counter_filed hthread hindex]
    · exact lookup_filed_of_ne hthread hindex (by simp) (by simp) (by simp)
    · exact (hlog b n).trans (if_pos rfl)
    · exact (hlog c m).trans (if_neg hne)
    · exact lookup_filed_of_ne hthread hindex (by simp) hne (by simp)
  | update h hops => exact hops.announces h a
  | @remove t b d n data held linked vanished h hdata hmetadata hlinked hvanished hn =>
    have hlog : ∀ a m, (t.batch (removalBatch b d n data.size linked vanished)).lookup
        (.change a .email m) = if Loc.change a .email m = .change b .email n then
          some (ChangeValue.mk d .delete) else t.lookup (.change a .email m) :=
      lookup_change_of_batch (within_removalOps hlinked hvanished) (by simp) t b d n .delete
    refine announces_of_batch d .delete h hn (fun c => ?_) (fun c => ?_) ?_ (fun c m hne => ?_)
      (fun c e hne => ?_) (fun _ => ?_) a
    · rw [emailCounter, counter_released, counter_removed hlinked hvanished]
      cases held <;> simp [emailCounter]
    · rw [lookup_released (by simp)]
      exact lookup_removed_of_ne hlinked hvanished (by simp) (by simp) (by simp)
    · rw [lookup_released (by simp)]
      exact (hlog b n).trans (if_pos rfl)
    · rw [lookup_released (by simp)]
      exact (hlog c m).trans (if_neg hne)
    · rw [lookup_released (by simp)]
      exact lookup_removed_of_ne hlinked hvanished (by simp) hne (by simp)
    · rw [lookup_released (by simp)]
      exact lookup_removed_data hvanished

theorem MailStep.number_le (h : MailStep digest F P s t) (b : ℕ) (c : Collection) (k : ℕ) :
    s.counter (.number b c k) ≤ t.counter (.number b c k) := by
  cases h with
  | calm h => exact h.number b c k
  | file hF h hhash hsize hthread hindex hn =>
    refine (h.number b c k).trans_eq ?_
    simp [counter_filed hthread hindex]
  | update h hops =>
    refine (h.number b c k).trans_eq ?_
    unfold Records.counter
    rw [lookup_updated_of_ne hops (by simp) (by simp) (by simp)]
  | @remove t a d n data held linked vanished h hdata hmetadata hlinked hvanished hn =>
    refine (h.number b c k).trans_eq ?_
    rw [counter_released, counter_removed hlinked hvanished]
    cases held <;> simp

end Step
end IrixMail.Mail
