import IrixMail.Core.Error
import Mathlib.Data.Nat.Bitwise
import Mathlib.Tactic.Ring

/-!
# The id generator

An id packs a millisecond count, a node number and a sequence number. The
generator remembers the last pair of millisecond and sequence number in one
word, the issue slot; it moves to the slot of the current millisecond or, when
the clock has not passed the last one, to the slot after it.
-/

namespace IrixMail

def sequenceBits : UInt64 := 12
def nodeBits : UInt64 := 10
def sequenceMask : UInt64 := (1 <<< sequenceBits) - 1
def nodeMask : UInt64 := (1 <<< nodeBits) - 1
def timestampShift : UInt64 := sequenceBits + nodeBits
def epochSeconds : ℕ := 1704067200

structure IdGenerator where
  node : UInt64
  last : UInt64
  node_lt : node.toNat < 2 ^ 10

namespace IdGenerator

def new (node : UInt64) : IdGenerator where
  node := node &&& nodeMask
  last := 0
  node_lt := by
    have hle : (node &&& nodeMask).toNat ≤ nodeMask.toNat := by
      rw [UInt64.toNat_and]
      exact Nat.and_le_right
    exact lt_of_le_of_lt hle (by decide)

def advance (nowMs previous : UInt64) : UInt64 × UInt64 :=
  let previousMs := previous >>> sequenceBits
  let previousSeq := previous &&& sequenceMask
  if previousMs < nowMs then (nowMs, 0)
  else if previousSeq < sequenceMask then (previousMs, previousSeq + 1)
  else (previousMs + 1, 0)

def slotOf (next : UInt64 × UInt64) : UInt64 := next.1 <<< sequenceBits ||| next.2

def generate (g : IdGenerator) (nowMs : UInt64) : UInt64 × IdGenerator :=
  let next := advance nowMs g.last
  (next.1 <<< timestampShift ||| g.node <<< sequenceBits ||| next.2, { g with last := slotOf next })

def timestampOf (id : UInt64) : ℕ := (id >>> timestampShift).toNat / 1000 + epochSeconds

/-! ## Issue slots -/

/-- The first slot that comes after `last` and not before the millisecond `nowMs`,
in the 64 bits of the word. -/
def issueSlot (nowMs last : ℕ) : ℕ := max (nowMs * 2 ^ 12) (last + 1) % 2 ^ 64

theorem snd_advance_lt (nowMs previous : UInt64) : (advance nowMs previous).2.toNat < 2 ^ 12 := by
  have hmask : sequenceMask.toNat = 4095 := by decide
  have hzero : (0 : UInt64).toNat = 0 := rfl
  have hone : (1 : UInt64).toNat = 1 := rfl
  unfold advance
  dsimp only
  split
  · rw [hzero]
    decide
  · split
    next h =>
      have hlt := UInt64.lt_iff_toNat_lt.1 h
      rw [UInt64.toNat_add]
      omega
    · rw [hzero]
      decide

theorem or_shift_eq (x y n : ℕ) (hn : n ≤ 64) (hy : y < 2 ^ n) :
    x <<< n % 2 ^ 64 ||| y = (x * 2 ^ n + y) % 2 ^ 64 := by
  obtain ⟨k, hk⟩ : ∃ k, 64 = k + n := ⟨64 - n, by omega⟩
  have hpow : (2 : ℕ) ^ 64 = 2 ^ k * 2 ^ n := by rw [hk, pow_add]
  have hshift : x <<< n % 2 ^ 64 = (x % 2 ^ k) <<< n := by
    rw [Nat.shiftLeft_eq, Nat.shiftLeft_eq, hpow, Nat.mul_mod_mul_right]
  have hlt : (x % 2 ^ k) * 2 ^ n + y < 2 ^ k * 2 ^ n := by
    have hx : x % 2 ^ k + 1 ≤ 2 ^ k := Nat.mod_lt _ (Nat.two_pow_pos _)
    calc (x % 2 ^ k) * 2 ^ n + y < (x % 2 ^ k) * 2 ^ n + 2 ^ n := by omega
      _ = (x % 2 ^ k + 1) * 2 ^ n := by ring
      _ ≤ 2 ^ k * 2 ^ n := Nat.mul_le_mul_right _ hx
  rw [hshift, ← Nat.shiftLeft_add_eq_or_of_lt hy, Nat.shiftLeft_eq, hpow]
  conv_rhs => rw [Nat.add_mod, Nat.mul_mod_mul_right]
  rw [Nat.mod_eq_of_lt (a := y), Nat.mod_eq_of_lt hlt]
  calc y < 2 ^ n := hy
    _ ≤ 2 ^ k * 2 ^ n := Nat.le_mul_of_pos_left _ (Nat.two_pow_pos _)

theorem toNat_slotOf {next : UInt64 × UInt64} (h : next.2.toNat < 2 ^ 12) :
    (slotOf next).toNat = (next.1.toNat * 2 ^ 12 + next.2.toNat) % 2 ^ 64 := by
  have hbits : sequenceBits.toNat % 64 = 12 := by decide
  rw [slotOf, UInt64.toNat_or, UInt64.toNat_shiftLeft, hbits, or_shift_eq _ _ 12 (by decide) h]

theorem toNat_slotOf_advance (nowMs previous : UInt64) :
    (slotOf (advance nowMs previous)).toNat = issueSlot nowMs.toNat previous.toNat := by
  have hmask : sequenceMask.toNat = 2 ^ 12 - 1 := by decide
  have hbits : sequenceBits.toNat % 64 = 12 := by decide
  have hms : (previous >>> sequenceBits).toNat = previous.toNat / 2 ^ 12 := by
    rw [UInt64.toNat_shiftRight, hbits, Nat.shiftRight_eq_div_pow]
  have hseq : (previous &&& sequenceMask).toNat = previous.toNat % 2 ^ 12 := by
    rw [UInt64.toNat_and, hmask, Nat.and_two_pow_sub_one_eq_mod]
  have hzero : (0 : UInt64).toNat = 0 := rfl
  have hone : (1 : UInt64).toNat = 1 := rfl
  rw [toNat_slotOf (snd_advance_lt nowMs previous)]
  unfold advance issueSlot
  simp only [UInt64.lt_iff_toNat_lt]
  split
  · rw [hzero, Nat.add_zero, max_eq_left (by omega)]
  · rw [max_eq_right (by omega)]
    split
    · rw [UInt64.toNat_add, hms, hseq, hone]
      omega
    · rw [UInt64.toNat_add, hzero]
      omega

variable (g : IdGenerator)

theorem last_generate (nowMs : UInt64) :
    (g.generate nowMs).2.last.toNat = issueSlot nowMs.toNat g.last.toNat :=
  toNat_slotOf_advance nowMs g.last

@[simp] theorem node_generate (nowMs : UInt64) : (g.generate nowMs).2.node = g.node := rfl

theorem toNat_generate (nowMs : UInt64) :
    (g.generate nowMs).1.toNat = ((advance nowMs g.last).1.toNat * 2 ^ 22 +
      (g.node.toNat * 2 ^ 12 + (advance nowMs g.last).2.toNat)) % 2 ^ 64 := by
  have hseq := snd_advance_lt nowMs g.last
  have hnode := g.node_lt
  have hbits : sequenceBits.toNat % 64 = 12 := by decide
  have hshift : timestampShift.toNat % 64 = 22 := by decide
  unfold generate
  generalize advance nowMs g.last = next at hseq ⊢
  dsimp only
  have hlow : (g.node <<< sequenceBits ||| next.2).toNat = g.node.toNat * 2 ^ 12 + next.2.toNat := by
    rw [UInt64.toNat_or, UInt64.toNat_shiftLeft, hbits, or_shift_eq _ _ 12 (by decide) hseq]
    omega
  rw [UInt64.or_assoc, UInt64.toNat_or, UInt64.toNat_shiftLeft, hshift, hlow,
    or_shift_eq _ _ 22 (by decide)]
  omega

/-- The low half of an id: of the slot it keeps the millisecond count modulo 1024
and the sequence number. -/
theorem asU32_generate (nowMs : UInt64) :
    asU32 (g.generate nowMs).1.toNat =
      issueSlot nowMs.toNat g.last.toNat / 2 ^ 12 % 2 ^ 10 * 2 ^ 22 + g.node.toNat * 2 ^ 12 +
        issueSlot nowMs.toNat g.last.toNat % 2 ^ 12 := by
  have hseq := snd_advance_lt nowMs g.last
  have hnode := g.node_lt
  rw [← toNat_slotOf_advance, toNat_slotOf hseq, toNat_generate]
  unfold asU32
  omega

/-- Two ids of one node share their low half exactly when their slots agree
modulo 2²², that is, in the millisecond count modulo 1024 and in the sequence number. -/
theorem asU32_generate_eq_iff {g h : IdGenerator} (hnode : g.node = h.node) (x y : UInt64) :
    asU32 (g.generate x).1.toNat = asU32 (h.generate y).1.toNat ↔
      issueSlot x.toNat g.last.toNat ≡ issueSlot y.toNat h.last.toNat [MOD 2 ^ 22] := by
  rw [asU32_generate, asU32_generate, hnode]
  unfold Nat.ModEq
  omega

end IdGenerator
end IrixMail
