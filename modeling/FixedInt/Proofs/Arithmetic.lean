import FixedInt.Plan
import FixedInt.Proofs.Word
import Mathlib.Tactic.Linarith
import Mathlib.Tactic.Ring

/-!
The six operations against exact integers. The reference reads both words as integers, computes
without a bound and looks whether the integer fits; the operations on words come to the same bits
and the same flag.
-/

namespace FixedInt

/-! ### The reference -/

namespace ArithOp

/-- The integer that an operation reads in the low bits of a word. -/
def reading (op : ArithOp) (w : Width) (b : UInt64) : Int :=
  if op.isSigned then w.signedOf b.toNat else (b.toNat % 2 ^ w.bits : Nat)

/-- The exact sum, difference or product. -/
def exact (op : ArithOp) (x y : Int) : Int :=
  match op with
  | sadd | uadd => x + y
  | ssub | usub => x - y
  | smul | umul => x * y

/-- The integer has a representation at the width: two's complement for a signed operation, a
natural number for an unsigned one. -/
def InRange (op : ArithOp) (w : Width) (n : Int) : Prop :=
  if op.isSigned then -2 ^ (w.bits - 1) ≤ n ∧ n < 2 ^ (w.bits - 1) else 0 ≤ n ∧ n < 2 ^ w.bits

/-- A result in words stands for an exact integer: the bits are the integer wrapped to the width,
and the flag says whether it lies outside the range. -/
def Represents (op : ArithOp) (w : Width) (n : Int) (r : UInt64 × Bool) : Prop :=
  (r.1.toNat : Int) = n % 2 ^ w.bits ∧ (r.2 = true ↔ ¬ op.InRange w n)

end ArithOp

namespace WordOp

open ArithOp

/-! ### Sums and differences -/

lemma toNat_truncate_add (w : Width) (a b : UInt64) :
    ((w.truncate (a + b)).toNat : Int) = (a.toNat + b.toNat : Int) % 2 ^ w.bits := by
  rw [Width.toNat_truncate, UInt64.toNat_add, Nat.mod_mod_of_dvd _ w.two_pow_bits_dvd]
  push_cast
  rfl

lemma toNat_truncate_sub (w : Width) (a b : UInt64) :
    ((w.truncate (a - b)).toNat : Int) = (a.toNat - b.toNat : Int) % 2 ^ w.bits := by
  have hb := b.toNat_lt
  rw [Width.toNat_truncate, UInt64.toNat_sub, Nat.mod_mod_of_dvd _ w.two_pow_bits_dvd]
  cases w <;> simp only [Width.bits] <;> omega

section Signed

variable (w : Width) (a b : UInt64)

theorem signedAdd_represents :
    Represents .sadd w (w.signedOf a.toNat + w.signedOf b.toNat) (signedAdd w a b) := by
  have hr : ((w.truncate (a + b)).toNat : Int) =
      (w.signedOf a.toNat + w.signedOf b.toNat) % 2 ^ w.bits := by
    rw [toNat_truncate_add, Int.add_emod (w.signedOf _), w.signedOf_emod, w.signedOf_emod,
      ← Int.add_emod]
  refine ⟨hr, ?_⟩
  have hflag : (signedAdd w a b).2 = true ↔
      (w.isNegative a = true ↔ w.isNegative b = true) ∧
        ¬ (w.isNegative (w.truncate (a + b)) = true ↔ w.isNegative a = true) := by
    simp only [signedAdd, Width.isNegative_and, Width.isNegative_xor]
    cases w.isNegative a <;> cases w.isNegative b <;>
      cases w.isNegative (w.truncate (a + b)) <;> simp
  have hx := w.signedOf_range a.toNat
  have hy := w.signedOf_range b.toNat
  have hz := Width.signedOf_wrapped hr (by omega) (by omega)
  rw [hflag, w.isNegative_iff, w.isNegative_iff, w.isNegative_iff]
  simp only [InRange, isSigned, if_true]
  omega

theorem signedSub_represents :
    Represents .ssub w (w.signedOf a.toNat - w.signedOf b.toNat) (signedSub w a b) := by
  have hr : ((w.truncate (a - b)).toNat : Int) =
      (w.signedOf a.toNat - w.signedOf b.toNat) % 2 ^ w.bits := by
    rw [toNat_truncate_sub, Int.sub_emod (w.signedOf _), w.signedOf_emod, w.signedOf_emod,
      ← Int.sub_emod]
  refine ⟨hr, ?_⟩
  have hflag : (signedSub w a b).2 = true ↔
      ¬ (w.isNegative a = true ↔ w.isNegative b = true) ∧
        ¬ (w.isNegative (w.truncate (a - b)) = true ↔ w.isNegative a = true) := by
    simp only [signedSub, Width.isNegative_and, Width.isNegative_xor]
    cases w.isNegative a <;> cases w.isNegative b <;>
      cases w.isNegative (w.truncate (a - b)) <;> simp
  have hx := w.signedOf_range a.toNat
  have hy := w.signedOf_range b.toNat
  have hz := Width.signedOf_wrapped hr (by omega) (by omega)
  rw [hflag, w.isNegative_iff, w.isNegative_iff, w.isNegative_iff]
  simp only [InRange, isSigned, if_true]
  omega

end Signed

section Unsigned

variable {w : Width} {a b : UInt64} (ha : a.toNat < 2 ^ w.bits) (hb : b.toNat < 2 ^ w.bits)
include ha hb

theorem unsignedAdd_represents :
    Represents .uadd w (a.toNat + b.toNat) (unsignedAdd w a b) := by
  have hr := toNat_truncate_add w a b
  refine ⟨hr, ?_⟩
  simp only [unsignedAdd, decide_eq_true_iff, UInt64.lt_iff_toNat_lt, InRange, isSigned,
    Bool.false_eq_true, if_false]
  cases w <;> simp only [Width.bits] at * <;> omega

theorem unsignedSub_represents :
    Represents .usub w (a.toNat - b.toNat) (unsignedSub w a b) := by
  refine ⟨toNat_truncate_sub w a b, ?_⟩
  simp only [unsignedSub, decide_eq_true_iff, UInt64.lt_iff_toNat_lt, InRange, isSigned,
    Bool.false_eq_true, if_false]
  cases w <;> simp only [Width.bits] at * <;> omega

end Unsigned

/-! ### Signed products -/

section SignedMul

/-- The exact product of two readings below 64 bits fits a word. -/
lemma toInt_signExtend_mul {w : Width} (hw : w ≠ .w64) (a b : UInt64) :
    (w.signExtend a * w.signExtend b).toInt = w.signedOf a.toNat * w.signedOf b.toNat := by
  have hx := w.signedOf_range a.toNat
  have hy := w.signedOf_range b.toNat
  have hh : (2 : Int) ^ (w.bits - 1) ≤ 2 ^ 31 := by cases w <;> simp_all [Width.bits]
  have hb : (w.signedOf a.toNat * w.signedOf b.toNat).natAbs ≤ 2 ^ 31 * 2 ^ 31 := by
    rw [Int.natAbs_mul]
    exact Nat.mul_le_mul (by omega) (by omega)
  rw [Int64.toInt_mul, Width.toInt_signExtend, Width.toInt_signExtend]
  exact Int.bmod_eq_of_le (by omega) (by omega)

/-- A signed word read as unsigned is its integer wrapped. -/
lemma toNat_toUInt64 (n : Int64) : (n.toUInt64.toNat : Int) = n.toInt % 2 ^ 64 := by
  have h : n.toInt = Int.bmod n.toUInt64.toNat (2 ^ 64) := Width.toInt_toInt64 n.toUInt64
  have hlt := n.toUInt64.toNat_lt
  rw [h, Int.bmod_def]
  omega

lemma toNat_truncate_toUInt64 (w : Width) (n : Int64) :
    ((w.truncate n.toUInt64).toNat : Int) = n.toInt % 2 ^ w.bits := by
  rw [Width.toNat_truncate]
  push_cast
  rw [toNat_toUInt64, Int.emod_emod_of_dvd]
  exact_mod_cast w.two_pow_bits_dvd

theorem signedMul_represents {w : Width} (hw : w ≠ .w64) (a b : UInt64) :
    Represents .smul w (w.signedOf a.toNat * w.signedOf b.toNat) (signedMul w a b) := by
  have hp := toInt_signExtend_mul hw a b
  have hr := toNat_truncate_toUInt64 w (w.signExtend a * w.signExtend b)
  rw [hp] at hr
  rw [signedMul, if_neg hw]
  refine ⟨hr, ?_⟩
  have hz := w.signedOf_range (w.truncate (w.signExtend a * w.signExtend b).toUInt64).toNat
  rw [bne_iff_ne, ne_eq, ← Int64.toInt_inj, Width.toInt_signExtend, hp, not_iff_not]
  simp only [InRange, isSigned, if_true]
  constructor
  · intro h
    rwa [h] at hz
  · intro h
    have hz := Width.signedOf_wrapped hr (by omega) (by omega)
    omega

/-- **Dividing back.** A product that is wrapped by a multiple of `2 ^ 64` does not divide back,
since the remainder of a division is smaller than the divisor. -/
lemma tdiv_wrapped_iff {x y k : Int} (hy : y ≠ 0) (hb : y.natAbs ≤ 2 ^ 63) :
    (x * y - 2 ^ 64 * k).tdiv y = x ↔ k = 0 := by
  constructor
  · intro h
    have hrem := Int.mul_tdiv_add_tmod (x * y - 2 ^ 64 * k) y
    have hlt : ((x * y - 2 ^ 64 * k).tmod y).natAbs < y.natAbs := by
      rw [Int.natAbs_tmod]
      exact Nat.mod_lt _ (by omega)
    rw [h] at hrem
    have hk : (x * y - 2 ^ 64 * k).tmod y = -(2 ^ 64 * k) := by linarith
    rw [hk] at hlt
    omega
  · rintro rfl
    rw [mul_zero, sub_zero, Int.mul_tdiv_cancel _ hy]

/-- The test by cases finds exactly the products that do not fit. -/
lemma signedWideOverflow_iff (a b : Int64) :
    signedWideOverflow a b (a * b) = true ↔
      ¬ (-2 ^ 63 ≤ a.toInt * b.toInt ∧ a.toInt * b.toInt < 2 ^ 63) := by
  have hla := a.le_toInt
  have hua := a.toInt_lt
  have hlb := b.le_toInt
  have hub := b.toInt_lt
  unfold signedWideOverflow
  by_cases h0 : a = 0 ∨ b = 0
  · rw [if_pos h0]
    rcases h0 with rfl | rfl <;> simp
  rw [if_neg h0]
  -- the only quotient out of range is that of the smallest integer by `-1`
  by_cases h1 : b = -1
  · rw [if_pos h1, decide_eq_true_iff, ← Int64.toInt_inj, Int64.toInt_minValue, h1,
      show (-1 : Int64).toInt = -1 from rfl]
    omega
  have hb : b.toInt ≠ 0 := fun h => h0 (Or.inr (Int64.toInt_inj.1 h))
  -- elsewhere the product that is wrapped has to divide back
  obtain ⟨k, hk⟩ : ∃ k, (a * b).toInt = a.toInt * b.toInt - 2 ^ 64 * k := by
    refine ⟨(a.toInt * b.toInt - (a * b).toInt) / 2 ^ 64, ?_⟩
    rw [Int64.toInt_mul, Int.bmod_def]
    omega
  have hlr := (a * b).le_toInt
  have hur := (a * b).toInt_lt
  rw [if_neg h1, bne_iff_ne, ne_eq, ← Int64.toInt_inj, Int64.toInt_div_of_ne_right _ _ h1, hk,
    tdiv_wrapped_iff hb (by omega), not_iff_not]
  omega

theorem signedMulWide_represents (a b : UInt64) :
    Represents .smul .w64 (Width.signedOf .w64 a.toNat * Width.signedOf .w64 b.toNat)
      (signedMulWide a.toInt64 b.toInt64) := by
  have hread : ∀ n : UInt64, n.toInt64.toInt = Width.signedOf .w64 n.toNat := fun n => by
    rw [Width.toInt_toInt64, Width.signedOf_eq_bmod]
    rfl
  rw [← hread, ← hread]
  refine ⟨?_, signedWideOverflow_iff _ _⟩
  change ((a.toInt64 * b.toInt64).toUInt64.toNat : Int) = _
  rw [toNat_toUInt64, Int64.toInt_mul]
  exact Int.bmod_emod

end SignedMul

/-! ### Unsigned products -/

section UnsignedMul

variable (a b : UInt64)

lemma toNat_highHalf : (highHalf a).toNat = a.toNat / 2 ^ 32 := by
  rw [highHalf, UInt64.toNat_shiftRight, Nat.shiftRight_eq_div_pow]
  rfl

lemma toNat_lowHalf : (lowHalf a).toNat = a.toNat % 2 ^ 32 := by
  rw [lowHalf, UInt64.toNat_and]
  exact Nat.and_two_pow_sub_one_eq_mod _ 32

/-- The exact product by half words. -/
lemma mul_eq_halves (x y : Nat) :
    x * y = (x / 2 ^ 32) * (y / 2 ^ 32) * 2 ^ 64 +
      ((x / 2 ^ 32) * (y % 2 ^ 32) + (x % 2 ^ 32) * (y / 2 ^ 32)) * 2 ^ 32 +
      (x % 2 ^ 32) * (y % 2 ^ 32) := by
  conv_lhs => rw [← Nat.div_add_mod x (2 ^ 32), ← Nat.div_add_mod y (2 ^ 32)]
  ring

/-- A product of half words fits a word. -/
lemma halves_mul_lt {x y : Nat} (hx : x < 2 ^ 32) (hy : y < 2 ^ 32) : x * y < 2 ^ 64 := by
  calc x * y ≤ (2 ^ 32 - 1) * (2 ^ 32 - 1) := Nat.mul_le_mul (by omega) (by omega)
    _ < 2 ^ 64 := by norm_num

lemma toNat_lowHalf_mul :
    (lowHalf a * lowHalf b).toNat = (a.toNat % 2 ^ 32) * (b.toNat % 2 ^ 32) := by
  rw [UInt64.toNat_mul, toNat_lowHalf, toNat_lowHalf, Nat.mod_eq_of_lt]
  exact halves_mul_lt (Nat.mod_lt _ (by norm_num)) (Nat.mod_lt _ (by norm_num))

lemma highHalf_eq_zero_iff : highHalf a = 0 ↔ a.toNat / 2 ^ 32 = 0 := by
  rw [← UInt64.toNat_inj, toNat_highHalf]
  rfl

/-- When one of the upper halves is zero, at most one term of the middle part is not, and the sum
does not wrap. -/
lemma toNat_cross (h : ¬ (highHalf a ≠ 0 ∧ highHalf b ≠ 0)) :
    (cross a b).toNat =
      (a.toNat / 2 ^ 32) * (b.toNat % 2 ^ 32) + (a.toNat % 2 ^ 32) * (b.toNat / 2 ^ 32) := by
  have hah := Nat.div_lt_of_lt_mul (n := 2 ^ 32) (k := 2 ^ 32) a.toNat_lt
  have hbh := Nat.div_lt_of_lt_mul (n := 2 ^ 32) (k := 2 ^ 32) b.toNat_lt
  have h1 := halves_mul_lt hah (Nat.mod_lt b.toNat (Nat.two_pow_pos 32))
  have h2 := halves_mul_lt (Nat.mod_lt a.toNat (Nat.two_pow_pos 32)) hbh
  simp only [ne_eq, highHalf_eq_zero_iff] at h
  rw [cross, UInt64.toNat_add, UInt64.toNat_mul, UInt64.toNat_mul]
  simp only [toNat_highHalf, toNat_lowHalf]
  rw [Nat.mod_eq_of_lt h1, Nat.mod_eq_of_lt h2]
  refine Nat.mod_eq_of_lt ?_
  rcases not_and_or.1 h with h0 | h0 <;> rw [not_not] at h0 <;> rw [h0]
  · rwa [Nat.zero_mul, Nat.zero_add]
  · rwa [Nat.mul_zero, Nat.add_zero]

/-- **The test by half words** finds exactly the products that need more than 64 bits. -/
lemma unsignedWideOverflow_iff :
    unsignedWideOverflow a b = true ↔ 2 ^ 64 ≤ a.toNat * b.toNat := by
  unfold unsignedWideOverflow
  by_cases h : highHalf a ≠ 0 ∧ highHalf b ≠ 0
  · -- both factors are at least `2 ^ 32`
    rw [if_pos h]
    rw [ne_eq, ne_eq, highHalf_eq_zero_iff, highHalf_eq_zero_iff] at h
    have : 2 ^ 32 * 2 ^ 32 ≤ a.toNat * b.toNat := Nat.mul_le_mul (by omega) (by omega)
    simp only [true_iff]
    omega
  -- one upper half is zero, so that the middle part is exact and only the last sum can carry
  have hp := mul_eq_halves a.toNat b.toNat
  have hzero : (a.toNat / 2 ^ 32) * (b.toNat / 2 ^ 32) = 0 := by
    rw [ne_eq, ne_eq, highHalf_eq_zero_iff, highHalf_eq_zero_iff] at h
    exact Nat.mul_eq_zero.2 (by omega)
  rw [hzero, ← toNat_cross a b h, ← toNat_lowHalf_mul] at hp
  have hgt : cross a b > halfMask ↔ 2 ^ 32 ≤ (cross a b).toNat := by
    rw [gt_iff_lt, UInt64.lt_iff_toNat_lt]
    exact Nat.lt_iff_add_one_le
  rw [if_neg h]
  by_cases h1 : cross a b > halfMask
  · rw [if_pos h1]
    rw [hgt] at h1
    simp only [true_iff]
    omega
  · rw [if_neg h1]
    rw [hgt] at h1
    have hs : (cross a b <<< 32).toNat = (cross a b).toNat * 2 ^ 32 := by
      rw [UInt64.toNat_shiftLeft, Nat.shiftLeft_eq]
      exact Nat.mod_eq_of_lt (by change _ * 2 ^ 32 < _; omega)
    rw [carries, decide_eq_true_iff, hs, hp]
    change 2 ^ 64 ≤ _ ↔ _
    omega

theorem unsignedMulWide_represents :
    Represents .umul .w64 (a.toNat * b.toNat) (unsignedMulWide a b) := by
  refine ⟨?_, ?_⟩
  · change ((a * b).toNat : Int) = _
    rw [UInt64.toNat_mul]
    push_cast
    rfl
  · rw [unsignedMulWide, unsignedWideOverflow_iff]
    simp only [InRange, isSigned, Bool.false_eq_true, if_false, Width.bits]
    norm_cast
    omega

variable {a b}

theorem unsignedMul_represents {w : Width} (hw : w ≠ .w64) (ha : a.toNat < 2 ^ w.bits)
    (hb : b.toNat < 2 ^ w.bits) :
    Represents .umul w (a.toNat * b.toNat) (unsignedMul w a b) := by
  have hh : 2 ^ w.bits ≤ 2 ^ 32 := by cases w <;> simp_all [Width.bits]
  have hlt : a.toNat * b.toNat < 2 ^ 64 := halves_mul_lt (by omega) (by omega)
  have hp : (a * b).toNat = a.toNat * b.toNat := by
    rw [UInt64.toNat_mul, Nat.mod_eq_of_lt hlt]
  rw [unsignedMul, if_neg hw]
  refine ⟨?_, ?_⟩
  · change ((w.truncate (a * b)).toNat : Int) = _
    rw [Width.toNat_truncate, hp]
    push_cast
    rfl
  · have hm := Nat.two_pow_pos w.bits
    rw [decide_eq_true_iff, gt_iff_lt, UInt64.lt_iff_toNat_lt, Width.toNat_mask, hp]
    simp only [InRange, isSigned, Bool.false_eq_true, if_false]
    norm_cast
    omega

end UnsignedMul

end WordOp

/-! ### All operations -/

namespace ArithOp

theorem onWords_represents (op : ArithOp) (w : Width) (a b : UInt64) :
    op.Represents w (op.exact (op.reading w a) (op.reading w b)) (op.onWords w a b) := by
  have ha := w.toNat_truncate_lt a
  have hb := w.toNat_truncate_lt b
  cases op with
  | sadd =>
    have h := WordOp.signedAdd_represents w (w.truncate a) (w.truncate b)
    rwa [Width.signedOf_truncate, Width.signedOf_truncate] at h
  | ssub =>
    have h := WordOp.signedSub_represents w (w.truncate a) (w.truncate b)
    rwa [Width.signedOf_truncate, Width.signedOf_truncate] at h
  | smul =>
    by_cases hw : w = .w64
    · subst hw
      have h := WordOp.signedMulWide_represents (Width.w64.truncate a) (Width.w64.truncate b)
      rwa [Width.signedOf_truncate, Width.signedOf_truncate] at h
    · have h := WordOp.signedMul_represents hw (w.truncate a) (w.truncate b)
      rwa [Width.signedOf_truncate, Width.signedOf_truncate] at h
  | uadd =>
    have h := WordOp.unsignedAdd_represents ha hb
    rwa [Width.toNat_truncate, Width.toNat_truncate] at h
  | usub =>
    have h := WordOp.unsignedSub_represents ha hb
    rwa [Width.toNat_truncate, Width.toNat_truncate] at h
  | umul =>
    by_cases hw : w = .w64
    · subst hw
      have h := WordOp.unsignedMulWide_represents (Width.w64.truncate a) (Width.w64.truncate b)
      rwa [Width.toNat_truncate, Width.toNat_truncate] at h
    · have h := WordOp.unsignedMul_represents hw ha hb
      rwa [Width.toNat_truncate, Width.toNat_truncate] at h

lemma onWords_truncate (op : ArithOp) (w : Width) (a b : UInt64) :
    op.onWords w (w.truncate a) (w.truncate b) = op.onWords w a b := by
  simp only [onWords, Width.truncate_truncate]

lemma toNat_onWords_lt (op : ArithOp) (w : Width) (a b : UInt64) :
    (op.onWords w a b).1.toNat < 2 ^ w.bits := by
  have h := (op.onWords_represents w a b).1
  have hlt := Int.emod_lt_of_pos (op.exact (op.reading w a) (op.reading w b))
    (b := 2 ^ w.bits) (by positivity)
  rw [← h] at hlt
  exact_mod_cast hlt

lemma plan_of_width (op : ArithOp) {w : Width} {left right : Scalar} (hl : left.width = w)
    (hr : right.width = w) :
    (Operation.arith op).plan left.shape right.shape = .ok (.arith op w) := by
  simp only [Operation.plan, Scalar.shape, hl, hr, if_true]

lemma plan_of_width_ne (op : ArithOp) {left right : Scalar} (h : left.width ≠ right.width) :
    (Operation.arith op).plan left.shape right.shape =
      .error (.unsupported (.operands (.arith op) left.shape right.shape)) := by
  simp only [Operation.plan, Scalar.shape, if_neg h]

/-- Scalars of one width are computed with as words of that width. -/
theorem compute_eq (op : ArithOp) {w : Width} {left right : Scalar} (hl : left.width = w)
    (hr : right.width = w) :
    op.compute left right = .ok ⟨.ofBits w (op.onWords w left.bits right.bits).1,
      (op.onWords w left.bits right.bits).2⟩ := by
  have h1 : w.truncate left.bits = left.bits := hl ▸ left.fits
  have h2 : w.truncate right.bits = right.bits := hr ▸ right.fits
  rw [compute, op.plan_of_width hl hr, onWords, h1, h2]
  exact if_pos ⟨hl, hr⟩

/-- **Arithmetic is exact.** On any two words an operation gives the exact integer wrapped to the
width, and its flag is set exactly when the integer lies outside the range. Scalars of the low
bits of the words give the same bits and the same flag, and never fail. -/
theorem onWords_exact (op : ArithOp) (w : Width) (a b : UInt64) :
    op.Represents w (op.exact (op.reading w a) (op.reading w b)) (op.onWords w a b) ∧
      ∃ r, op.compute (.ofBits w a) (.ofBits w b) = .ok r ∧ r.width = w ∧
        r.value.bits = (op.onWords w a b).1 ∧ r.overflow = (op.onWords w a b).2 := by
  have hbits : op.onWords w (w.truncate a) (w.truncate b) = op.onWords w a b :=
    op.onWords_truncate w a b
  refine ⟨op.onWords_represents w a b, _, compute_eq op rfl rfl, rfl, ?_, ?_⟩
  · change w.truncate (op.onWords w (w.truncate a) (w.truncate b)).1 = _
    rw [hbits, Width.truncate_eq_self (op.toNat_onWords_lt w a b)]
  · change (op.onWords w (w.truncate a) (w.truncate b)).2 = _
    rw [hbits]

end ArithOp

end FixedInt
