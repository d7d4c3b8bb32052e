import IrixMail.Mail.Accounting
import IrixMail.Mail.Announcements

/-!
# Accounting along runs

Runs of mail operations, each to completion, from an empty store. Document ids
come from `allocateDocumentId`; an id is used for one message. The id is the low
half of a counter that only grows, so after 2³² draws it names a document that
may still exist: the accounting holds along every run in which each allocated id
is free.
-/

namespace IrixMail.Mail
open Library Prog Store List

section Step
variable {digest : Digest} {F : ℕ → ℕ → Bytes → Prop} {s t : Records}
  {P : MessageData → MessageData → Prop}

theorem Accounted.step (hs : Accounted s) (hstep : MailStep digest F P s t)
    (hF : ∀ a d raw, F a d raw → s.lookup (.data a d) = none ∧ raw.length < 2 ^ 32)
    (hP : ∀ x y, P x y → y.size = x.size) :
    Accounted t := by
  cases hstep with
  | calm h => exact hs.calm h
  | file hfiled h hhash hsize hthread hindex hn =>
    obtain ⟨hfree, hlt⟩ := hF _ _ _ hfiled
    exact (hs.calm h).file ((h.data _ _).trans hfree) (hsize.trans (asU32_of_lt hlt)) hthread hindex
  | update h hops => exact hs.update h (hops.weaken hP)
  | remove h hdata hmetadata hlinked hvanished hn =>
    exact (hs.calm h).remove ((h.data _ _).trans hdata) ((h.metadata _ _).trans hmetadata)
      hlinked hvanished

theorem MailStep.data_none (hstep : MailStep digest F P s t) {a d : ℕ}
    (hF : ∀ raw, ¬ F a d raw) (hnone : s.lookup (.data a d) = none) :
    t.lookup (.data a d) = none := by
  cases hstep with
  | calm h => exact (h.data a d).trans hnone
  | @file t b e n raw metadata data threading index hfiled h hhash hsize hthread hindex hn =>
    rw [lookup_filed_of_ne hthread hindex (by simp) ?_ (by simp)]
    · exact (h.data a d).trans hnone
    · rintro heq
      obtain ⟨rfl, rfl⟩ := Loc.data.inj heq
      exact hF raw hfiled
  | update h hops =>
    rcases lookup_updated_data hops a d with hkept | ⟨original, data, horiginal, -, -⟩
    · exact hkept.trans ((h.data a d).trans hnone)
    · simp [hnone] at horiginal
  | @remove t b e n data metadata linked vanished h hdata hmetadata hlinked hvanished hn =>
    by_cases heq : Loc.data a d = .data b e
    · obtain ⟨rfl, rfl⟩ := Loc.data.inj heq
      rw [lookup_released (by simp)]
      exact lookup_removed_data hvanished
    · rw [lookup_released (by simp),
        lookup_removed_of_ne hlinked hvanished (by simp) heq (by simp)]
      exact (h.data a d).trans hnone

end Step

/-- Messages are below 4 GiB, and mutations leave the size alone, as those of all
callers do. -/
def MailOp.Sized : MailOp → Prop
  | allocate _ => True
  | deliver request => request.raw.length < 2 ^ 32
  | append request => request.raw.length < 2 ^ 32
  | update _ _ mutate => ∀ x y, mutate x = .ok y → y.size = x.size
  | updates _ _ mutate => ∀ d x y, mutate d x = .ok y → y.size = x.size
  | delete _ _ => True

/-- The shared state, with the document ids that are allocated and not yet used. -/
structure MailState where
  world : World
  issued : List (ℕ × ℕ)

def nextDocumentId (s : Records) (a : ℕ) : ℕ := intAsU32 (emailCounter s a + 1)

namespace MailState
variable (env : Env)

def step (st : MailState) (op : MailOp) : MailState :=
  match op with
  | .allocate a => ⟨op.perform env st.world, (a, nextDocumentId st.world.records a) :: st.issued⟩
  | .deliver request =>
    if (request.account.mailId, request.documentId) ∈ st.issued then
      ⟨op.perform env st.world, st.issued.erase (request.account.mailId, request.documentId)⟩
    else st
  | .append request =>
    if (request.account.mailId, request.documentId) ∈ st.issued then
      ⟨op.perform env st.world, st.issued.erase (request.account.mailId, request.documentId)⟩
    else st
  | .update _ _ _ => ⟨op.perform env st.world, st.issued⟩
  | .updates _ _ _ => ⟨op.perform env st.world, st.issued⟩
  | .delete _ _ => ⟨op.perform env st.world, st.issued⟩

def run (st : MailState) (ops : List MailOp) : MailState := ops.foldl (step env) st

def Allocates (st : MailState) : MailOp → Prop
  | .allocate a => st.world.records.lookup (.data a (nextDocumentId st.world.records a)) = none ∧
      (a, nextDocumentId st.world.records a) ∉ st.issued
  | _ => True

def AllocatesAlong (st : MailState) : List MailOp → Prop
  | [] => True
  | op :: ops => st.Allocates op ∧ (st.step env op).AllocatesAlong ops

structure Sound (st : MailState) : Prop where
  accounted : Accounted st.world.records
  counters : ∀ a, 0 ≤ emailCounter st.world.records a
  free : ∀ a d, (a, d) ∈ st.issued → st.world.records.lookup (.data a d) = none
  nodup : st.issued.Nodup

variable {env} {st : MailState}

variable {op : MailOp} {a d : ℕ}

theorem size_of_mutates (hsized : op.Sized) {x y : MessageData}
    (h : op.Mutates x y) : y.size = x.size := by
  cases op with
  | update a d mutate => exact hsized x y h
  | updates a ds mutate =>
    obtain ⟨d, hd⟩ := h
    exact hsized d x y hd
  | _ => exact h.elim

theorem length_of_files (hsized : op.Sized) {raw : Bytes}
    (h : op.Files a d raw) : raw.length < 2 ^ 32 := by
  cases op with
  | deliver request =>
    obtain ⟨-, -, rfl⟩ := h
    exact hsized
  | append request =>
    obtain ⟨-, -, rfl⟩ := h
    exact hsized
  | _ => exact h.elim

/-- A call that files its message, if any, under an issued id keeps the state
sound, but that this id is used up. -/
theorem Sound.perform (h : st.Sound) (hsized : op.Sized)
    (hissued : ∀ a d raw, op.Files a d raw → (a, d) ∈ st.issued) {rest : List (ℕ × ℕ)}
    (hrest : rest.Sublist st.issued) (hused : ∀ a d raw, op.Files a d raw → (a, d) ∉ rest) :
    Sound ⟨op.perform env st.world, rest⟩ := by
  have hstep := op.step_perform env h.counters
  have haccounted := h.accounted.step hstep
    (fun a d raw hfiled => ⟨h.free a d (hissued a d raw hfiled), length_of_files hsized hfiled⟩)
    (fun x y => size_of_mutates hsized)
  refine ⟨haccounted, fun a => ?_, fun a d hd => ?_, h.nodup.sublist hrest⟩
  · exact (h.counters a).trans ((hstep.announces a).counter_le)
  · exact hstep.data_none (fun raw hfiled => hused a d raw hfiled hd) (h.free a d (hrest.subset hd))

theorem Sound.file (h : st.Sound) (hsized : op.Sized)
    (hfiles : ∀ b e raw, op.Files b e raw → b = a ∧ e = d) (hissued : (a, d) ∈ st.issued) :
    Sound ⟨op.perform env st.world, st.issued.erase (a, d)⟩ := by
  refine h.perform hsized ?_ erase_sublist ?_
  · rintro b e raw hfiled
    obtain ⟨rfl, rfl⟩ := hfiles b e raw hfiled
    exact hissued
  · rintro b e raw hfiled
    obtain ⟨rfl, rfl⟩ := hfiles b e raw hfiled
    exact fun hmem => ((List.Nodup.mem_erase_iff h.nodup).1 hmem).1 rfl

theorem Sound.step (h : st.Sound) (hsized : op.Sized) (hfresh : st.Allocates op) :
    (st.step env op).Sound := by
  cases op with
  | allocate a =>
    have hperform : Sound ⟨(MailOp.allocate a).perform env st.world, st.issued⟩ :=
      h.perform hsized (by simp [MailOp.Files]) (List.Sublist.refl _) (by simp [MailOp.Files])
    refine ⟨hperform.accounted, hperform.counters, fun b e hbe => ?_,
      nodup_cons.2 ⟨hfresh.2, h.nodup⟩⟩
    rcases mem_cons.1 hbe with heq | hbe
    · obtain ⟨rfl, rfl⟩ := Prod.mk.inj heq
      exact ((calm_draw st.world.records b .email 0).data b _).trans hfresh.1
    · exact hperform.free b e hbe
  | deliver request =>
    simp only [MailState.step]
    split
    next hissued => exact h.file hsized (fun _ _ _ hfiled => ⟨hfiled.1, hfiled.2.1⟩) hissued
    next => exact h
  | append request =>
    simp only [MailState.step]
    split
    next hissued => exact h.file hsized (fun _ _ _ hfiled => ⟨hfiled.1, hfiled.2.1⟩) hissued
    next => exact h
  | _ => exact h.perform hsized (by simp [MailOp.Files]) (List.Sublist.refl _) (by simp [MailOp.Files])

theorem Sound.run (h : st.Sound) {ops : List MailOp} (hsized : ∀ op ∈ ops, op.Sized)
    (hfresh : st.AllocatesAlong env ops) : (st.run env ops).Sound := by
  induction ops generalizing st with
  | nil => exact h
  | cons op ops ih =>
    exact ih (h.step (hsized op mem_cons_self) hfresh.1)
      (fun o ho => hsized o (mem_cons_of_mem _ ho)) hfresh.2

theorem sound_empty (ids : IdGenerator) (clock : ℕ) : Sound ⟨.empty ids clock, []⟩ :=
  ⟨accounted_empty, fun _ => le_rfl, by simp, nodup_nil⟩

variable (env)

/-- The counter as the store keeps it, in an `i64` that wraps around. -/
def counterI64 (s : Records) (c : CounterLoc) : ℤ := (s.counter c).bmod (2 ^ 64)

/-- The records after the first `n` operations on an empty store. -/
def recordsAfter (ids : IdGenerator) (clock : ℕ) (ops : List MailOp) (n : ℕ) : Records :=
  ((⟨.empty ids clock, []⟩ : MailState).run env (ops.take n)).world.records

variable {env}

theorem AllocatesAlong.take {ops : List MailOp} (h : st.AllocatesAlong env ops) (n : ℕ) :
    st.AllocatesAlong env (ops.take n) := by
  induction ops generalizing st n with
  | nil => simpa using h
  | cons op ops ih =>
    cases n with
    | zero => trivial
    | succ n => exact ⟨h.1, ih h.2 n⟩

theorem counterI64_eq {s : Records} (hs : Accounted s) {c : CounterLoc} (hc : countsMessages c)
    (hfits : s.counter c < 2 ^ 63) : counterI64 s c = counted s c := by
  have hnonneg := counted_nonneg s c
  have hcounter := counter_eq s c
  rw [hs.drift_eq hc, add_zero] at hcounter
  rw [counterI64, ← hcounter, Int.bmod_eq_of_le_mul_two] <;> omega

variable (env)

/-- Along every run from an empty store whose allocations are of free ids, and in which no
counter leaves the range of an `i64`, the counters agree with the records. -/
theorem accounted_run (ids : IdGenerator) (clock : ℕ) (ops : List MailOp)
    (hsized : ∀ op ∈ ops, op.Sized)
    (hfresh : (⟨.empty ids clock, []⟩ : MailState).AllocatesAlong env ops)
    (hfits : ∀ n c, (recordsAfter env ids clock ops n).counter c < 2 ^ 63) (n : ℕ) :
    Accounted (recordsAfter env ids clock ops n) ∧ ∀ c, countsMessages c →
      counterI64 (recordsAfter env ids clock ops n) c =
        counted (recordsAfter env ids clock ops n) c := by
  have haccounted : Accounted (recordsAfter env ids clock ops n) :=
    ((sound_empty ids clock).run (fun op hop => hsized op (mem_of_mem_take hop))
      (hfresh.take n)).accounted
  exact ⟨haccounted, fun c hc => counterI64_eq haccounted hc (hfits n c)⟩

def firstDelivery : List MailOp := [.allocate 7, .deliver (.plain 7 1 [65])]

theorem sized_firstDelivery : ∀ op ∈ firstDelivery, op.Sized := by
  simp [firstDelivery, MailOp.Sized, DeliveryRequest.plain]

def fits : Sigma Val → Bool
  | ⟨.counter _, v⟩ => v < (2 ^ 63 : ℤ)
  | _ => true

theorem counter_lt {s : Records} (h : s.entries.all fits = true) (c : CounterLoc) :
    s.counter c < 2 ^ 63 := by
  rw [Records.counter]
  cases hc : s.lookup (.counter c) with
  | none => exact (by decide : (0 : ℤ) < 2 ^ 63)
  | some v => exact of_decide_eq_true (all_eq_true.1 h _ (AList.mem_lookup_iff.1 hc))

theorem accounted_firstDelivery :
    (⟨.empty (.new 0) 0, []⟩ : MailState).AllocatesAlong .plain firstDelivery ∧
      (∀ n c, (recordsAfter .plain (.new 0) 0 firstDelivery n).counter c < 2 ^ 63) ∧
      Accounted (recordsAfter .plain (.new 0) 0 firstDelivery 2) := by
  have hfresh : (⟨.empty (.new 0) 0, []⟩ : MailState).AllocatesAlong .plain firstDelivery :=
    ⟨⟨rfl, List.not_mem_nil⟩, trivial, trivial⟩
  have hfits : ∀ n c, (recordsAfter .plain (.new 0) 0 firstDelivery n).counter c < 2 ^ 63 := by
    intro n
    refine counter_lt ?_
    rcases n with _ | _ | n
    · decide
    · decide
    · rw [recordsAfter, take_of_length_le (by simp [firstDelivery])]
      decide
  exact ⟨hfresh, hfits, (accounted_run .plain _ _ _ sized_firstDelivery hfresh hfits 2).1⟩

/-! A run in which the id of a stored document is allocated again. -/

theorem run_append (st : MailState) (ops ops' : List MailOp) :
    st.run env (ops ++ ops') = (st.run env ops).run env ops' := foldl_append

theorem run_singleton (st : MailState) (op : MailOp) : st.run env [op] = st.step env op := rfl

def withEmailCounter (s : Records) (a : ℕ) (n : ℤ) : Records :=
  s.insert (.counter (.number a .email 0)) n

theorem run_replicate_allocate (a n : ℕ) (st : MailState) :
    ∃ issued, st.run env (replicate (n + 1) (.allocate a)) =
      ⟨{ st.world with records := withEmailCounter st.world.records a
                                    (emailCounter st.world.records a + (n + 1 : ℕ)) },
        (a, intAsU32 (emailCounter st.world.records a + (n + 1 : ℕ))) :: issued⟩ := by
  induction n generalizing st with
  | zero => exact ⟨st.issued, rfl⟩
  | succ n ih =>
    obtain ⟨issued, h⟩ := ih (st.step env (.allocate a))
    refine ⟨issued, ?_⟩
    have hrecords : (st.step env (.allocate a)).world.records =
        withEmailCounter st.world.records a (emailCounter st.world.records a + 1) := rfl
    have hcounter : emailCounter (st.step env (.allocate a)).world.records a =
        emailCounter st.world.records a + 1 := by
      rw [hrecords, emailCounter, Records.counter, withEmailCounter, AList.lookup_insert]
      rfl
    change (st.step env (.allocate a)).run env _ = _
    rw [h, hcounter, hrecords, withEmailCounter, withEmailCounter, AList.insert_insert]
    have hsum : emailCounter st.world.records a + 1 + (n + 1 : ℕ) =
        emailCounter st.world.records a + (n + 1 + 1 : ℕ) := by
      push_cast
      ring
    rw [hsum]
    rfl

def redeliveryOps (n : ℕ) : List MailOp :=
  firstDelivery ++ List.replicate (n + 1) (.allocate 7) ++ [.deliver (.plain 7 1 [66])]

theorem sized_redeliveryOps (n : ℕ) : ∀ op ∈ redeliveryOps n, op.Sized := by
  intro op hop
  simp only [redeliveryOps, mem_append, mem_singleton] at hop
  rcases hop with (h | h) | rfl
  · exact sized_firstDelivery op h
  · rw [eq_of_mem_replicate h]
    trivial
  · simp [MailOp.Sized, DeliveryRequest.plain]

def drawnWorld (n : ℕ) : World :=
  let w := ((⟨.empty (.new 0) 0, []⟩ : MailState).run .plain firstDelivery).world
  { w with records := withEmailCounter w.records 7 (2 + (n + 1 : ℕ)) }

theorem run_redeliveryOps {n : ℕ} (hid : intAsU32 (2 + (n + 1 : ℕ)) = 1) :
    ((⟨.empty (.new 0) 0, []⟩ : MailState).run .plain (redeliveryOps n)).world =
      (MailOp.deliver (.plain 7 1 [66])).perform .plain (drawnWorld n) := by
  have hcounter : emailCounter ((⟨.empty (.new 0) 0, []⟩ : MailState).run .plain
      firstDelivery).world.records 7 = 2 := by decide
  obtain ⟨issued, h⟩ := run_replicate_allocate .plain 7 n
    ((⟨.empty (.new 0) 0, []⟩ : MailState).run .plain firstDelivery)
  rw [hcounter, hid] at h
  rw [redeliveryOps, run_append, run_append, h, run_singleton, MailState.step, if_pos]
  · rfl
  · exact mem_cons_self

def wrappingOps : List MailOp := redeliveryOps (2 ^ 32 - 2)

set_option maxRecDepth 4000 in
theorem counter_drawnWorld :
    ((MailOp.deliver (.plain 7 1 [66])).perform .plain
      (drawnWorld (2 ^ 32 - 2))).records.counter (.quotaMessages 7) = 2 := by
  decide

set_option maxRecDepth 4000 in
theorem storedMessages_drawnWorld :
    storedMessages ((MailOp.deliver (.plain 7 1 [66])).perform .plain
      (drawnWorld (2 ^ 32 - 2))).records 7 = 1 := by
  decide

/-- Two messages are counted, and one is stored. -/
theorem wrappingOps_not_accounted :
    (∀ op ∈ wrappingOps, op.Sized) ∧
      ¬ Accounted ((⟨.empty (.new 0) 0, []⟩ : MailState).run .plain wrappingOps).world.records := by
  refine ⟨sized_redeliveryOps _, fun h => ?_⟩
  have hmessages := h.messages 7
  rw [wrappingOps, run_redeliveryOps (by decide), counter_drawnWorld, storedMessages_drawnWorld] at hmessages
  exact absurd hmessages (by decide)

end MailState
end IrixMail.Mail
