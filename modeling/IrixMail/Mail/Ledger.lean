import IrixMail.Mail.Accounting
import IrixMail.Mail.Clients

/-!
# The ledger of concurrent filings and removals

A removal takes its message off the counters in its batch and releases the blob
reference in a second step; in between it owes that release. When every call
still finds the records that it read, each counter is above what it counts by
what is owed, and by what it was above it from the start.
-/

namespace IrixMail.Mail
open Library Prog Store WriteOp List

variable {ι : Type} [DecidableEq ι]

def owed : Past ι → List (ι × BlobHash)
  | [] => []
  | e :: past =>
    match e.cmd with
    | .batch ops => (unlinkedBlobs ops).map (Prod.mk e.who) ++ owed past
    | .addAndGet (.refCount h) _ => (owed past).erase (e.who, h)
    | _ => owed past

def owedAt (past : Past ι) : CounterLoc → ℤ
  | .refCount h => ((owed past).countP fun x => x.2 = h : ℕ)
  | _ => 0

theorem owedAt_nonneg (past : Past ι) (c : CounterLoc) : 0 ≤ owedAt past c := by
  cases c <;> simp [owedAt]

theorem owed_cons_of_quiet {e : Event sig World ι} (h : Quiet e.cmd)
    (past : Past ι) : owed (e :: past) = owed past := by
  obtain ⟨i, w, c, r⟩ := e
  cases c with
  | batch ops => exact h.elim
  | addAndGet k n =>
    cases k with
    | refCount hash => exact h.elim
    | _ => rfl
  | _ => rfl

theorem owed_cons_batch {i : ι} {w : World} {ops : List WriteOp} {r : Unit}
    (past : Past ι) :
    owed (⟨i, w, .batch ops, r⟩ :: past) = (unlinkedBlobs ops).map (Prod.mk i) ++ owed past := rfl

theorem count_owed (i : ι) (h : BlobHash) (past : Past ι) :
    (owed past).count (i, h) = (owedBlobs (traceOf i past)).count h := by
  induction past with
  | nil => rfl
  | cons e past ih =>
    obtain ⟨j, w, c, r⟩ := e
    by_cases hj : j = i
    · subst hj
      rw [traceOf_cons_self (by rfl)]
      cases c with
      | batch ops =>
        rw [owed_cons_batch, owedBlobs, count_append, count_append, ih,
          count_map_of_injective _ _ (Prod.mk_right_injective j)]
      | addAndGet k n =>
        cases k with
        | refCount hash => simp [owed, owedBlobs, count_erase, ih]
        | _ => exact ih
      | _ => exact ih
    · rw [traceOf_cons_of_ne (by exact hj), ← ih]
      cases c with
      | batch ops =>
        rw [owed_cons_batch, count_append, Nat.add_eq_right, count_eq_zero]
        simp [hj]
      | addAndGet k n =>
        cases k with
        | refCount hash => simp [owed, count_erase, hj]
        | _ => rfl
      | _ => rfl

theorem owed_eq_nil {past : Past ι}
    (h : ∀ i, owedBlobs (traceOf i past) = []) : owed past = [] := by
  refine eq_nil_iff_forall_not_mem.2 fun x hx => ?_
  have hcount := count_owed x.1 x.2 past
  rw [h x.1] at hcount
  exact count_eq_zero.1 hcount hx

/-! ## Calls that find what they read -/

def MailOp.Updates : MailOp → Bool
  | .update _ _ _ | .updates _ _ _ => true
  | _ => false

def Vacant (s : Records) (a d : ℕ) : Prop :=
  s.lookup (.data a d) = none ∧ s.lookup (.metadata a d) = none

/-- A filing finds its document id free, and a removal finds the records it read. -/
def MailOp.Ready (e : Event sig World ι) (past : Past ι) : MailOp → Prop
  | .deliver request => Vacant e.before.records request.account.mailId request.documentId
  | .append request => Vacant e.before.records request.account.mailId request.documentId
  | .delete a d => Unchanged (· = .data a d) e past ∧ Unchanged (· = .metadata a d) e past
  | _ => True

instance (e : Event sig World ι) (past : Past ι) :
    (op : MailOp) → Decidable (op.Ready e past)
  | .deliver _ | .append _ | .delete _ _ => instDecidableAnd
  | .allocate _ | .update _ _ _ | .updates _ _ _ => .isTrue trivial

theorem MailOp.Ready.vacant {e : Event sig World ι} {past : Past ι} {op : MailOp}
    (h : op.Ready e past) {a d : ℕ} {raw : Bytes} (hfiles : op.Files a d raw) :
    Vacant e.before.records a d := by
  cases op with
  | deliver request =>
    obtain ⟨rfl, rfl, rfl⟩ := hfiles
    exact h
  | append request =>
    obtain ⟨rfl, rfl, rfl⟩ := hfiles
    exact h
  | _ => exact hfiles.elim

section Step
variable {env : Env} {op : MailOp} {e : Event sig World ι} {past : Past ι}

variable {a d : ℕ} {data : MessageData} {i : ι} {ops : List WriteOp} {w : World}

theorem owedAt_removal {t : Trace sig} {held : Option MessageMetadata}
    (h : RemovalCommit env a d t data held ops)
    {r : Unit} (c : CounterLoc) :
    owedAt (⟨i, w, .batch ops, r⟩ :: past) c = owedAt past c + heldAt held c := by
  cases c with
  | refCount hash =>
    simp only [owedAt, owed_cons_batch, countP_append, h.unlinkedBlobs_eq]
    cases held with
    | none => simp [heldAt]
    | some m => by_cases hm : m.blobHash = hash <;> simp [heldAt, add_comm]
  | _ => cases held <;> simp [owedAt, heldAt]

theorem owedAt_release {u : Trace sig} {held : MessageMetadata}
    (h : RemovalCommit env a d u data (some held) ops) {n r : ℤ} (htrace : traceOf i past = ⟨.batch ops, ()⟩ :: u) (c : CounterLoc) :
    owedAt (⟨i, w, .addAndGet (.refCount held.blobHash) n, r⟩ :: past) c =
      owedAt past c - heldAt (some held) c := by
  have hmem : (i, held.blobHash) ∈ owed past := by
    rw [← count_pos_iff, count_owed, htrace, owedBlobs, h.unlinkedBlobs_eq]
    simp
  cases c with
  | refCount hash =>
    have hpos : 0 < (owed past).countP fun x => x.2 = held.blobHash :=
      countP_pos_iff.2 ⟨_, hmem, by simp⟩
    by_cases hm : held.blobHash = hash
    · subst hm
      simp only [owedAt, owed, countP_erase, hmem, heldAt]
      simp
      omega
    · simp [owedAt, owed, countP_erase, heldAt, hm]
  | _ => simp [owedAt, heldAt]

theorem drift_step (hop : op.Updates = false)
    (hallows : op.Allows env (traceOf e.who past) e.cmd)
    (hready : isBatch e.cmd → op.Ready e past) {c : CounterLoc} (hc : countsMessages c)
    (hsized : ∀ a d raw, op.Files a d raw → .quotaBytes a = c → raw.length < 2 ^ 32) :
    drift (machine env.digest e.cmd e.before).2.records c - owedAt (e :: past) c =
      drift e.before.records c - owedAt past c := by
  obtain ⟨i, w, cmd, r⟩ := e
  cases hallows with
  | quiet h =>
    rw [drift_calm (calm_quiet env.digest h w) hc]
    simp only [owedAt, owed_cons_of_quiet (e := ⟨i, w, cmd, r⟩) h]
  | put hfiles ht => rfl
  | @file _ a d raw metadata data ops hfiles h =>
    obtain ⟨hdata, hmetadata⟩ := (hready rfl).vacant hfiles
    obtain ⟨threading, index, n, hthread, hedits, hn, rfl⟩ := h.ops
    have hsize : .quotaBytes a = c → data.size = raw.length := fun ha => by
      rw [h.size, asU32, Nat.mod_eq_of_lt (hsized a d raw hfiles ha)]
    have howed : owed (⟨i, w, .batch (filingBatch a d n metadata data raw.length threading index),
        r⟩ :: past) = owed past := by
      rw [owed_cons_batch, unlinkedBlobs_filingBatch hthread hedits.postingOps]
      rfl
    simp only [owedAt, howed]
    exact congrArg (· - _) (drift_filed hdata hmetadata hthread hedits.postingOps hsize)
  | update h => cases hop
  | updates hu h => cases hop
  | remove h =>
    obtain ⟨hdata, hmetadata⟩ := hready rfl
    rw [owedAt_removal h]
    obtain ⟨linked, vanished, n, hlinked, hvanished, hn, rfl⟩ := h.ops
    have hdrift := drift_removed (n := n) (hdata.lookup_eq rfl h.read)
      (hmetadata.lookup_eq rfl h.readMetadata) (hlinked.unlinkOps env) hvanished c
    simp only [machine]
    rw [hdrift]
    ring
  | @release a d u data held ops h ht =>
    rw [owedAt_release h ht]
    have hdrift := drift_released (s := w.records) (some held) c
    change drift (w.records.batch (releaseOps (some held))) c - _ = _
    rw [hdrift]
    ring

end Step
end IrixMail.Mail
