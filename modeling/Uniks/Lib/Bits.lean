/-
  A memory of bytes read as a row of bits, the lowest bit of each byte first.

  Setting and clearing a bit work on the byte that holds it, with a mask; `bit_setBit` and
  `bit_clearBit` say what that does to the row, and nothing about bytes is needed after them.  A
  row of bits determines the bytes (`ext_bits`).
-/
import Uniks.Lib.ByteMem
import Mathlib.Algebra.Order.Ring.Nat

namespace Uniks.Bits

open Uniks.ByteMem

/-- The byte with the `j`-th bit set. -/
def mask (j : Nat) : UInt8 := ⟨BitVec.twoPow 8 j⟩

/-- The `i`-th bit. -/
def bit (b : Bytes) (i : Nat) : Bool := (b (i / 8)).toBitVec.getLsbD (i % 8)

def setBit (b : Bytes) (i : Nat) : Bytes := Function.update b (i / 8) (b (i / 8) ||| mask (i % 8))

def clearBit (b : Bytes) (i : Nat) : Bytes :=
  Function.update b (i / 8) (b (i / 8) &&& ~~~ mask (i % 8))

variable {b b' : Bytes} {i : Nat}

/-- The bits of the other bytes. -/
theorem bit_update_of_ne (b : Bytes) {p : Nat} (x : UInt8) (h : i / 8 ≠ p) :
    bit (Function.update b p x) i = bit b i := by
  unfold bit
  rw [Function.update_of_ne h]

/-- Two positions in one byte differ in their masks. -/
theorem mod_eq_iff {k : Nat} (h : k / 8 = i / 8) : i % 8 = k % 8 ↔ k = i := by omega

theorem bit_setBit (b : Bytes) (i k : Nat) : bit (setBit b i) k = (decide (k = i) || bit b k) := by
  unfold setBit
  by_cases hbyte : k / 8 = i / 8
  · have hlt : i % 8 < 8 := Nat.mod_lt i (by decide)
    unfold bit
    rw [hbyte, Function.update_self]
    show ((b (i / 8)).toBitVec ||| BitVec.twoPow 8 (i % 8)).getLsbD (k % 8) = _
    rw [BitVec.getLsbD_or, BitVec.getLsbD_twoPow, decide_eq_true hlt, Bool.true_and, Bool.or_comm]
    simp only [mod_eq_iff hbyte]
  · have hne : k ≠ i := fun heq => hbyte (by rw [heq])
    rw [bit_update_of_ne b _ hbyte, decide_eq_false hne, Bool.false_or]

theorem bit_clearBit (b : Bytes) (i k : Nat) :
    bit (clearBit b i) k = (!decide (k = i) && bit b k) := by
  unfold clearBit
  by_cases hbyte : k / 8 = i / 8
  · have hlt : i % 8 < 8 := Nat.mod_lt i (by decide)
    have hlt' : k % 8 < 8 := Nat.mod_lt k (by decide)
    unfold bit
    rw [hbyte, Function.update_self]
    show ((b (i / 8)).toBitVec &&& ~~~ BitVec.twoPow 8 (i % 8)).getLsbD (k % 8) = _
    rw [BitVec.getLsbD_and, BitVec.getLsbD_not, BitVec.getLsbD_twoPow, decide_eq_true hlt,
      decide_eq_true hlt', Bool.true_and, Bool.true_and, Bool.and_comm]
    simp only [mod_eq_iff hbyte]
  · have hne : k ≠ i := fun heq => hbyte (by rw [heq])
    rw [bit_update_of_ne b _ hbyte, decide_eq_false hne, Bool.not_false, Bool.true_and]

theorem ext_bits (h : ∀ k, bit b k = bit b' k) : b = b' := by
  funext p
  apply UInt8.toBitVec_inj.mp
  apply BitVec.eq_of_getLsbD_eq
  intro j hj
  have hbit := h (8 * p + j)
  unfold bit at hbit
  have hdiv : (8 * p + j) / 8 = p := by omega
  have hmod : (8 * p + j) % 8 = j := by omega
  rw [hdiv, hmod] at hbit
  exact hbit

/-- A bit that was clear is set and cleared. -/
theorem clearBit_setBit (h : bit b i = false) : clearBit (setBit b i) i = b := by
  apply ext_bits
  intro k
  rw [bit_clearBit, bit_setBit]
  by_cases hk : k = i
  · rw [hk, h, decide_eq_true rfl]
    rfl
  · rw [decide_eq_false hk]
    rfl

/-- The test for a clear bit with a mask. -/
theorem not_and_mask_ne_zero (x : UInt8) {j : Nat} (hj : j < 8) :
    (~~~ x &&& mask j ≠ 0) ↔ x.toBitVec.getLsbD j = false := by
  have hval : (~~~ x &&& mask j).toBitVec = ~~~ x.toBitVec &&& BitVec.twoPow 8 j := rfl
  have hzero : ∀ y : UInt8, y = 0 ↔ y.toBitVec = 0#8 := fun y => UInt8.toBitVec_inj.symm
  rw [Ne, hzero, hval, BitVec.and_twoPow, BitVec.getLsbD_not, decide_eq_true hj, Bool.true_and]
  cases x.toBitVec.getLsbD j with
  | true => simp
  | false =>
    have hpow : BitVec.twoPow 8 j ≠ 0#8 := by
      intro heq
      have hbit := congrArg (fun y => y.getLsbD j) heq
      simp only [BitVec.getLsbD_twoPow, decide_eq_true hj, BitVec.getLsbD_zero] at hbit
      exact absurd hbit (by decide)
    simp [hpow]

end Uniks.Bits
