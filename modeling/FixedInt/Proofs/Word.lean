import FixedInt.Scalar
import Mathlib.Data.Nat.Bitwise

/-!
What the masks and shifts of a width compute. Cutting a word down is a remainder, the test of the
sign bit asks for the upper half of the range, and sign extension gives the two's complement
reading. Everything is stated on the number that a word stands for.
-/

namespace FixedInt

namespace Width

/-- **The two's complement reading** of the low bits of a number: the upper half of the range
stands for negative integers. -/
def signedOf (w : Width) (n : Nat) : Int :=
  if n % 2 ^ w.bits < 2 ^ (w.bits - 1) then (n % 2 ^ w.bits : Nat)
  else (n % 2 ^ w.bits : Nat) - 2 ^ w.bits

lemma signedOf_eq_bmod (w : Width) (n : Nat) : w.signedOf n = Int.bmod n (2 ^ w.bits) := by
  rw [signedOf, Int.bmod_def]
  cases w <;> simp only [bits] <;> omega

lemma signedOf_mod (w : Width) (n : Nat) : w.signedOf (n % 2 ^ w.bits) = w.signedOf n := by
  simp [signedOf]

/-- The reading is congruent to the number. -/
theorem signedOf_emod (w : Width) (n : Nat) :
    w.signedOf n % 2 ^ w.bits = (n : Int) % 2 ^ w.bits := by
  rw [signedOf_eq_bmod]
  exact_mod_cast Int.bmod_emod

theorem signedOf_range (w : Width) (n : Nat) :
    -2 ^ (w.bits - 1) ≤ w.signedOf n ∧ w.signedOf n < 2 ^ (w.bits - 1) := by
  rw [signedOf]
  cases w <;> simp only [bits] <;> omega

/-- **An integer that is wrapped reads back as itself** if it lies in the signed range; one that
lies outside it by less than the range reads back one range off. -/
theorem signedOf_wrapped {w : Width} {n : Nat} {x : Int} (hn : (n : Int) = x % 2 ^ w.bits)
    (h1 : -(2 * 2 ^ (w.bits - 1)) ≤ x) (h2 : x < 2 * 2 ^ (w.bits - 1)) :
    x < -2 ^ (w.bits - 1) ∧ w.signedOf n = x + 2 * 2 ^ (w.bits - 1) ∨
      (-2 ^ (w.bits - 1) ≤ x ∧ x < 2 ^ (w.bits - 1)) ∧ w.signedOf n = x ∨
      2 ^ (w.bits - 1) ≤ x ∧ w.signedOf n = x - 2 * 2 ^ (w.bits - 1) := by
  rw [signedOf_eq_bmod, hn, Int.bmod_def]
  cases w <;> simp only [bits] at * <;> omega

/-! ### Cutting a word down -/

lemma toNat_mask (w : Width) : w.mask.toNat = 2 ^ w.bits - 1 := by cases w <;> decide

theorem toNat_truncate (w : Width) (b : UInt64) : (w.truncate b).toNat = b.toNat % 2 ^ w.bits := by
  rw [truncate, UInt64.toNat_and, toNat_mask, Nat.and_two_pow_sub_one_eq_mod]

lemma toNat_truncate_lt (w : Width) (b : UInt64) : (w.truncate b).toNat < 2 ^ w.bits := by
  rw [toNat_truncate]
  exact Nat.mod_lt _ (Nat.two_pow_pos _)

lemma signedOf_truncate (w : Width) (b : UInt64) :
    w.signedOf (w.truncate b).toNat = w.signedOf b.toNat := by
  rw [toNat_truncate, signedOf_mod]

lemma truncate_eq_self {w : Width} {b : UInt64} (h : b.toNat < 2 ^ w.bits) : w.truncate b = b := by
  rw [← UInt64.toNat_inj, toNat_truncate, Nat.mod_eq_of_lt h]

/-- The range of a width divides that of a word, so that it does not matter whether a result is
first wrapped at 64 bits. -/
lemma two_pow_bits_dvd (w : Width) : 2 ^ w.bits ∣ 2 ^ 64 := by
  cases w <;> exact Nat.pow_dvd_pow 2 (by decide)

/-! ### The sign bit -/

lemma toNat_signBit (w : Width) : w.signBit.toNat = 2 ^ (w.bits - 1) := by cases w <;> decide

theorem isNegative_eq_testBit (w : Width) (b : UInt64) :
    w.isNegative b = b.toNat.testBit (w.bits - 1) := by
  have h : (b &&& w.signBit).toNat = (b.toNat.testBit (w.bits - 1)).toNat * 2 ^ (w.bits - 1) := by
    rw [UInt64.toNat_and, toNat_signBit, Nat.and_two_pow]
  have hpos := Nat.two_pow_pos (w.bits - 1)
  rw [isNegative, Bool.eq_iff_iff, bne_iff_ne, ne_eq, ← UInt64.toNat_inj, h]
  cases b.toNat.testBit (w.bits - 1) <;> simp

lemma isNegative_and (w : Width) (a b : UInt64) :
    w.isNegative (a &&& b) = (w.isNegative a && w.isNegative b) := by
  simp only [isNegative_eq_testBit, UInt64.toNat_and, Nat.testBit_and]

lemma isNegative_xor (w : Width) (a b : UInt64) :
    w.isNegative (a ^^^ b) = (w.isNegative a ^^ w.isNegative b) := by
  simp only [isNegative_eq_testBit, UInt64.toNat_xor, Nat.testBit_xor]

/-- The sign bit is set in the words that read as negative integers. -/
theorem isNegative_iff (w : Width) (b : UInt64) :
    w.isNegative b = true ↔ w.signedOf b.toNat < 0 := by
  rw [isNegative_eq_testBit, Nat.testBit_eq_decide_div_mod_eq, decide_eq_true_iff, signedOf]
  cases w <;> simp only [bits] <;> omega

/-! ### Sign extension -/

lemma toInt_toInt64 (b : UInt64) : b.toInt64.toInt = Int.bmod b.toNat (2 ^ 64) :=
  BitVec.toInt_eq_toNat_bmod _

/-- Shifting a signed word to the right divides it and rounds down. -/
lemma toInt_shiftRight (a : Int64) {n : Nat} (hn : n < 64) :
    (a >>> (UInt64.ofNat n).toInt64).toInt = a.toInt / 2 ^ n := by
  have hs : ((UInt64.ofNat n).toInt64.toBitVec.smod 64).toNat = n := by
    have : ∀ k < 64, ((UInt64.ofNat k).toInt64.toBitVec.smod 64).toNat = k := by decide
    exact this n hn
  rw [← Int64.toInt_toBitVec, Int64.toBitVec_shiftRight, BitVec.sshiftRight', hs,
    BitVec.toInt_sshiftRight, Int.shiftRight_eq_div_pow, Int64.toInt_toBitVec]
  norm_cast

theorem toInt_signExtend (w : Width) (b : UInt64) :
    (w.signExtend b).toInt = w.signedOf b.toNat := by
  have hk : 64 - w.shift = UInt64.ofNat (64 - w.bits) := by cases w <;> rfl
  have hn : 64 - w.bits < 64 := by cases w <;> decide
  have hs : (b <<< UInt64.ofNat (64 - w.bits)).toNat = b.toNat * 2 ^ (64 - w.bits) % 2 ^ 64 := by
    rw [UInt64.toNat_shiftLeft, Nat.shiftLeft_eq]
    cases w <;> rfl
  rw [signExtend, hk, toInt_shiftRight _ hn, toInt_toInt64, hs, signedOf, Int.bmod_def]
  cases w <;> simp only [bits] <;> omega

end Width

end FixedInt
