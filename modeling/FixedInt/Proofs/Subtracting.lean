import FixedInt.Proofs.Arithmetic
import FixedInt.Proofs.Comparing

/-!
Comparisons by subtraction. The signed and the unsigned difference of two words have the same bits.
These bits and the two overflow flags decide every predicate, as code does that subtracts and then
branches on flags, for words and for the lanes of vectors.
-/

namespace FixedInt

/-! ### The differences of two words -/

namespace ArithOp

variable (w : Width) (a b : UInt64)

/-- The signed and the unsigned difference differ in their flags alone. -/
lemma usub_bits_eq_ssub_bits : (usub.onWords w a b).1 = (ssub.onWords w a b).1 := rfl

lemma usub_bits_eq_zero_iff :
    (usub.onWords w a b).1 = 0 ↔ a.toNat % 2 ^ w.bits = b.toNat % 2 ^ w.bits := by
  have hr := (usub.onWords_represents w a b).1
  have ha := Nat.mod_lt a.toNat (Nat.two_pow_pos w.bits)
  have hb := Nat.mod_lt b.toNat (Nat.two_pow_pos w.bits)
  simp only [exact, reading, isSigned, Bool.false_eq_true, if_false] at hr
  rw [← UInt64.toNat_inj, UInt64.toNat_zero]
  cases w <;> simp only [Width.bits] at * <;> omega

/-- The unsigned difference borrows when the first operand is the smaller. -/
lemma usub_overflow_iff :
    (usub.onWords w a b).2 = true ↔ a.toNat % 2 ^ w.bits < b.toNat % 2 ^ w.bits := by
  have ha := Nat.mod_lt a.toNat (Nat.two_pow_pos w.bits)
  rw [(usub.onWords_represents w a b).2]
  simp only [exact, reading, isSigned, InRange, Bool.false_eq_true, if_false]
  cases w <;> simp only [Width.bits] at * <;> omega

/-- The sign of the signed difference tells the order of the operands, and where the difference
wrapped, it tells the opposite. -/
lemma ssub_sign_ne_overflow_iff :
    w.isNegative (ssub.onWords w a b).1 ≠ (ssub.onWords w a b).2 ↔
      w.signedOf a.toNat < w.signedOf b.toNat := by
  obtain ⟨hr, hflag⟩ := ssub.onWords_represents w a b
  simp only [exact, reading, isSigned, InRange, if_true] at hr hflag
  have hx := w.signedOf_range a.toNat
  have hy := w.signedOf_range b.toNat
  have hz := Width.signedOf_wrapped hr (by omega) (by omega)
  rw [ne_eq, Bool.eq_iff_iff, w.isNegative_iff, hflag]
  omega

lemma exists_compute_ofBits (op : ArithOp) : ∃ r, op.compute (.ofBits w a) (.ofBits w b) = .ok r ∧
    (r.value.bits, r.overflow) = op.onWords w a b := by
  have hwords : op.onWords w (w.truncate a) (w.truncate b) = op.onWords w a b :=
    op.onWords_truncate w a b
  refine ⟨_, op.compute_eq rfl rfl, ?_⟩
  change (w.truncate (op.onWords w (w.truncate a) (w.truncate b)).1,
    (op.onWords w (w.truncate a) (w.truncate b)).2) = _
  rw [hwords, Width.truncate_eq_self (op.toNat_onWords_lt w a b)]

end ArithOp

/-! ### Predicates of differences -/

namespace Predicate

open ArithOp

/-- Decides a predicate from the bits and the flags of the unsigned and the signed difference of
two words. Equal words have the difference zero, and a smaller word is one whose difference
borrows or, as a signed one, has a sign that is not its overflow flag. -/
def ofDifferences (p : Predicate) (w : Width) (unsigned signed : UInt64 × Bool) : Bool :=
  match p with
  | eq => unsigned.1 == 0
  | ne => !(unsigned.1 == 0)
  | slt => w.isNegative signed.1 != signed.2
  | sle => w.isNegative signed.1 != signed.2 || signed.1 == 0
  | sgt => !(w.isNegative signed.1 != signed.2 || signed.1 == 0)
  | sge => !(w.isNegative signed.1 != signed.2)
  | ult => unsigned.2
  | ule => unsigned.2 || unsigned.1 == 0
  | ugt => !(unsigned.2 || unsigned.1 == 0)
  | uge => !unsigned.2

/-- A predicate reads the same integer in two words if their low bits are the same. -/
lemma reading_eq_iff (p : Predicate) (w : Width) (a b : UInt64) :
    p.reading w a = p.reading w b ↔ a.toNat % 2 ^ w.bits = b.toNat % 2 ^ w.bits := by
  constructor
  · intro h
    have ha := (p.reading_spec w a).2
    rw [h, (p.reading_spec w b).2] at ha
    exact_mod_cast ha.symm
  · intro h
    simp only [reading, ← w.signedOf_mod a.toNat, ← w.signedOf_mod b.toNat, h]

section Words

variable (p : Predicate) (w : Width) (a b : UInt64)

lemma usub_bits_eq_zero_iff_reading :
    (usub.onWords w a b).1 = 0 ↔ p.reading w a = p.reading w b := by
  rw [usub_bits_eq_zero_iff, p.reading_eq_iff]

variable {p}

lemma usub_overflow_iff_reading (h : p.isSigned = false) :
    (usub.onWords w a b).2 = true ↔ p.reading w a < p.reading w b := by
  rw [usub_overflow_iff]
  simp only [reading, h, Bool.false_eq_true, if_false]
  exact Int.ofNat_lt.symm

lemma ssub_sign_iff_reading (h : p.isSigned = true) :
    (w.isNegative (ssub.onWords w a b).1 != (ssub.onWords w a b).2) = true ↔
      p.reading w a < p.reading w b := by
  rw [bne_iff_ne, ssub_sign_ne_overflow_iff]
  simp only [reading, h, if_true]

end Words

/-- **The differences decide every predicate** on words that lie within the width. -/
theorem holds_eq_ofDifferences (p : Predicate) {w : Width} {a b : UInt64} (ha : w.truncate a = a)
    (hb : w.truncate b = b) :
    p.holds w a b = p.ofDifferences w (usub.onWords w a b) (ssub.onWords w a b) := by
  have hzero := p.usub_bits_eq_zero_iff_reading w a b
  have hzero' := hzero
  rw [usub_bits_eq_ssub_bits] at hzero'
  have hbelow := usub_overflow_iff_reading w a b (p := p)
  have hless := ssub_sign_iff_reading w a b (p := p)
  rw [Bool.eq_iff_iff, p.holds_iff ha hb]
  cases p with
  | eq | ne => simp [ofDifferences, Relates, hzero]
  | ult => exact (hbelow rfl).symm
  | slt => exact (hless rfl).symm
  | ule | ugt | uge =>
    simp only [ofDifferences, Relates, Bool.or_eq_true, Bool.not_eq_true', ← Bool.not_eq_true,
      beq_iff_eq, hzero, hbelow rfl]
    omega
  | sle | sgt | sge =>
    simp only [ofDifferences, Relates, Bool.or_eq_true, Bool.not_eq_true', ← Bool.not_eq_true,
      beq_iff_eq, hzero', hless rfl]
    omega

/-! ### Words and lanes -/

/-- **Comparisons by subtraction.** On words that lie within a width the unsigned and the signed
difference have the same bits, and a predicate holds as these bits and the two flags tell. Vectors
of one shape that have lanes are compared, and entry `i` is what the differences of the scalars in
lanes `i` tell. -/
theorem compare_by_differences (w : Width) :
    (∀ a b : UInt64, a.toNat < 2 ^ w.bits → b.toNat < 2 ^ w.bits →
      (usub.onWords w a b).1 = (ssub.onWords w a b).1 ∧
      ∀ p : Predicate,
        p.holds w a b = p.ofDifferences w (usub.onWords w a b) (ssub.onWords w a b)) ∧
    ∀ xs ys : List UInt64, xs.length = ys.length → xs ≠ [] → ∀ p : Predicate,
      ∃ bs, p.compare (.ofBits w xs) (.ofBits w ys) = .ok bs ∧ bs.length = xs.length ∧
        ∀ (i : Nat) (x y : UInt64), xs[i]? = some x → ys[i]? = some y →
          ∃ u s, usub.compute (.ofBits w x) (.ofBits w y) = .ok u ∧
            ssub.compute (.ofBits w x) (.ofBits w y) = .ok s ∧
            bs[i]? = some (p.ofDifferences w (u.value.bits, u.overflow)
              (s.value.bits, s.overflow)) := by
  refine ⟨fun a b ha hb => ⟨usub_bits_eq_ssub_bits w a b, fun p => ?_⟩, ?_⟩
  · exact p.holds_eq_ofDifferences (Width.truncate_eq_self ha) (Width.truncate_eq_self hb)
  intro xs ys hlength hne p
  have hshape : (LaneVector.ofBits w xs).SameShape (.ofBits w ys) :=
    ⟨rfl, by simp [LaneVector.length, LaneVector.ofBits, hlength]⟩
  have hpos : 0 < (LaneVector.ofBits w xs).length := by
    simpa [LaneVector.length, LaneVector.ofBits] using List.length_pos_iff.2 hne
  refine ⟨_, p.compare_of_sameShape hshape hpos, ?_, fun i x y hx hy => ?_⟩
  · simp [LaneVector.ofBits, hlength]
  · obtain ⟨u, hu, hu'⟩ := exists_compute_ofBits w x y usub
    obtain ⟨s, hs, hs'⟩ := exists_compute_ofBits w x y ssub
    refine ⟨u, s, hu, hs, ?_⟩
    have hlane := p.holds_eq_ofDifferences (w.truncate_truncate x) (w.truncate_truncate y)
    rw [onWords_truncate, onWords_truncate, ← hu', ← hs'] at hlane
    rw [← hlane]
    simp [LaneVector.ofBits, List.getElem?_zipWith, hx, hy]

/-- The difference of the smallest integer of eight bits and one wraps to the largest. -/
theorem compare_by_differences_smallest :
    Predicate.slt.holds .w8 0x80 1 = true ∧ ssub.onWords .w8 0x80 1 = (0x7f, true) ∧
      ∃ bs, Predicate.sle.compare (.ofBits .w8 [0x80, 1]) (.ofBits .w8 [1, 0x80]) = .ok bs ∧
        bs.length = 2 ∧ bs[0]? = some true ∧ bs[1]? = some false := by
  obtain ⟨hwords, hlanes⟩ := compare_by_differences .w8
  obtain ⟨bs, hbs, hlength, hentries⟩ := hlanes [0x80, 1] [1, 0x80] rfl (by decide) .sle
  refine ⟨?_, rfl, bs, hbs, hlength, ?_, ?_⟩
  · rw [(hwords 0x80 1 (by decide) (by decide)).2]
    rfl
  · obtain ⟨u, s, hu, hs, hentry⟩ := hentries 0 0x80 1 rfl rfl
    cases hu
    cases hs
    exact hentry
  · obtain ⟨u, s, hu, hs, hentry⟩ := hentries 1 1 0x80 rfl rfl
    cases hu
    cases hs
    exact hentry

end Predicate

end FixedInt
