import IrixMail.Store.World

/-! Quota limits and the two usage counters of an account. -/

namespace IrixMail.Store
open Library Prog

structure QuotaLimits where
  bytes : ℕ
  messages : ℕ
  deriving DecidableEq

def QuotaLimits.isBounded (l : QuotaLimits) : Bool := l.bytes != 0 || l.messages != 0

structure QuotaUsage where
  bytes : ℕ
  messages : ℕ
  deriving DecidableEq

namespace Quota

def usage (a : ℕ) : Action QuotaUsage := do
  let bytes ← exec (.counter (.quotaBytes a))
  let messages ← exec (.counter (.quotaMessages a))
  pure ⟨(max bytes 0).toNat, (max messages 0).toNat⟩

def adjustOps (a : ℕ) (bytesDelta messagesDelta : ℤ) : List WriteOp :=
  (if bytesDelta ≠ 0 then [.add (.quotaBytes a) bytesDelta] else []) ++
    if messagesDelta ≠ 0 then [.add (.quotaMessages a) messagesDelta] else []

theorem loc_adjustOps {a : ℕ} {b m : ℤ} {op : WriteOp} (h : op ∈ adjustOps a b m) :
    op.loc = .counter (.quotaBytes a) ∨ op.loc = .counter (.quotaMessages a) := by
  simp only [adjustOps, List.mem_append] at h
  rcases h with h | h <;> split at h <;> simp_all [WriteOp.loc]

theorem additive_adjustOps {a : ℕ} {b m : ℤ} {op : WriteOp} (h : op ∈ adjustOps a b m) :
    op.Additive := by
  simp only [adjustOps, List.mem_append] at h
  rcases h with h | h <;> split at h <;> simp_all [WriteOp.Additive]

theorem sum_adjustOps (a : ℕ) (b m : ℤ) (c : CounterLoc) :
    ((adjustOps a b m).map (WriteOp.amountAt c)).sum =
      (if .quotaBytes a = c then b else 0) + if .quotaMessages a = c then m else 0 := by
  by_cases hb : b = 0 <;> by_cases hm : m = 0 <;> simp [adjustOps, hb, hm, WriteOp.amountAt]

end Quota

inductive QuotaVerdict
  | accepted
  | overByteQuota (limit wouldUse : ℕ)
  | overMessageQuota (limit wouldUse : ℕ)
  deriving DecidableEq

def QuotaVerdict.isAccepted : QuotaVerdict → Bool
  | accepted => true
  | _ => false

def QuotaVerdict.isOverQuota (v : QuotaVerdict) : Bool := !v.isAccepted

def enforceQuota (limits : QuotaLimits) (usage : QuotaUsage) (messageSize : ℕ) : QuotaVerdict :=
  if !limits.isBounded then .accepted
  else if limits.bytes != 0 && decide (limits.bytes < saturatingAdd usage.bytes messageSize) then
    .overByteQuota limits.bytes (saturatingAdd usage.bytes messageSize)
  else if limits.messages != 0 && decide (limits.messages < saturatingAdd usage.messages 1) then
    .overMessageQuota limits.messages (saturatingAdd usage.messages 1)
  else .accepted

end IrixMail.Store
