import FixedInt.Proofs.Word

/-!
Native integers and the scalars made from them. Each of the eight native types stands for a range of
integers; its bits, zero-extended, are a word of its width, and the word gives the native integer
back. So a scalar may as well be stored as a native integer of its width, and the number that was
put in can be read off it.
-/

namespace FixedInt

/-! ### Native types -/

/-- The native integer types: a signed and an unsigned one of each width. -/
inductive NativeType where
  | signed (w : Width)
  | unsigned (w : Width)

namespace NativeType

def width : NativeType → Width
  | signed w | unsigned w => w

/-- The values of a native type. -/
def Carrier : NativeType → Type
  | signed .w8 => Int8
  | signed .w16 => Int16
  | signed .w32 => Int32
  | signed .w64 => Int64
  | unsigned .w8 => UInt8
  | unsigned .w16 => UInt16
  | unsigned .w32 => UInt32
  | unsigned .w64 => UInt64

instance : (t : NativeType) → FixedInteger t.Carrier
  | signed .w8 => inferInstanceAs (FixedInteger Int8)
  | signed .w16 => inferInstanceAs (FixedInteger Int16)
  | signed .w32 => inferInstanceAs (FixedInteger Int32)
  | signed .w64 => inferInstanceAs (FixedInteger Int64)
  | unsigned .w8 => inferInstanceAs (FixedInteger UInt8)
  | unsigned .w16 => inferInstanceAs (FixedInteger UInt16)
  | unsigned .w32 => inferInstanceAs (FixedInteger UInt32)
  | unsigned .w64 => inferInstanceAs (FixedInteger UInt64)

/-- The number that a native integer stands for. -/
def number : (t : NativeType) → t.Carrier → Int
  | signed .w8, (x : Int8) => x.toInt
  | signed .w16, (x : Int16) => x.toInt
  | signed .w32, (x : Int32) => x.toInt
  | signed .w64, (x : Int64) => x.toInt
  | unsigned .w8, (x : UInt8) => x.toNat
  | unsigned .w16, (x : UInt16) => x.toNat
  | unsigned .w32, (x : UInt32) => x.toNat
  | unsigned .w64, (x : UInt64) => x.toNat

/-- The native integer of the low bits of a word. -/
def ofWord : (t : NativeType) → UInt64 → t.Carrier
  | signed .w8, b => b.toUInt8.toInt8
  | signed .w16, b => b.toUInt16.toInt16
  | signed .w32, b => b.toUInt32.toInt32
  | signed .w64, b => b.toInt64
  | unsigned .w8, b => b.toUInt8
  | unsigned .w16, b => b.toUInt16
  | unsigned .w32, b => b.toUInt32
  | unsigned .w64, b => b

/-- The number of a native integer as a word, where a negative one has copies of its sign bit above
the width. -/
def toWord (t : NativeType) (x : t.Carrier) : UInt64 := UInt64.ofInt (t.number x)

@[simp] lemma width_carrier (t : NativeType) : FixedInteger.width t.Carrier = t.width := by
  rcases t with (_ | _ | _ | _) | (_ | _ | _ | _) <;> rfl

/-! ### Native integers and words -/

/-- What is stored of a word are its low bits. -/
theorem bits_ofWord (t : NativeType) (b : UInt64) :
    FixedInteger.bits (t.ofWord b) = t.width.truncate b := by
  rw [← UInt64.toNat_inj, Width.toNat_truncate]
  rcases t with (_ | _ | _ | _) | (_ | _ | _ | _)
  case signed.w64 | unsigned.w64 => exact (Nat.mod_eq_of_lt b.toNat_lt).symm
  all_goals rfl

/-- The bits of a native integer give it back. -/
theorem ofWord_bits : (t : NativeType) → (x : t.Carrier) → t.ofWord (FixedInteger.bits x) = x
  | signed .w8, (x : Int8) => congrArg UInt8.toInt8 (UInt8.toUInt8_toUInt64 x.toUInt8)
  | signed .w16, (x : Int16) => congrArg UInt16.toInt16 (UInt16.toUInt16_toUInt64 x.toUInt16)
  | signed .w32, (x : Int32) => congrArg UInt32.toInt32 (UInt32.toUInt32_toUInt64 x.toUInt32)
  | unsigned .w8, x => UInt8.toUInt8_toUInt64 x
  | unsigned .w16, x => UInt16.toUInt16_toUInt64 x
  | unsigned .w32, x => UInt32.toUInt32_toUInt64 x
  | signed .w64, _ | unsigned .w64, _ => rfl

lemma truncate_bits (t : NativeType) (x : t.Carrier) :
    t.width.truncate (FixedInteger.bits x) = FixedInteger.bits x := by
  rw [← t.bits_ofWord, t.ofWord_bits]

/-- The bits of a signed integer read as two's complement. -/
lemma signedOf_bits (w : Width) (x : (signed w).Carrier) :
    w.signedOf (FixedInteger.bits x).toNat = (signed w).number x := by
  rw [Width.signedOf_eq_bmod]
  cases w with
  | w8 => exact (BitVec.toInt_eq_toNat_bmod (Int8.toBitVec x)).symm
  | w16 => exact (BitVec.toInt_eq_toNat_bmod (Int16.toBitVec x)).symm
  | w32 => exact (BitVec.toInt_eq_toNat_bmod (Int32.toBitVec x)).symm
  | w64 => exact (BitVec.toInt_eq_toNat_bmod (Int64.toBitVec x)).symm

lemma toNat_bits (w : Width) (x : (unsigned w).Carrier) :
    ((FixedInteger.bits x).toNat : Int) = (unsigned w).number x := by
  cases w <;> rfl

/-- The bits are the number wrapped to the width. -/
theorem toNat_bits_eq_emod (t : NativeType) (x : t.Carrier) :
    ((FixedInteger.bits x).toNat : Int) = t.number x % 2 ^ t.width.bits := by
  have hlt : (FixedInteger.bits x).toNat < 2 ^ t.width.bits := by
    rw [← t.truncate_bits]
    exact t.width.toNat_truncate_lt _
  have hmod : t.number x % 2 ^ t.width.bits =
      ((FixedInteger.bits x).toNat : Int) % 2 ^ t.width.bits := by
    cases t with
    | signed w => rw [← signedOf_bits, width, w.signedOf_emod]
    | unsigned w => rw [← toNat_bits]
  rw [hmod]
  exact (Int.emod_eq_of_lt (Int.natCast_nonneg _) (by exact_mod_cast hlt)).symm

lemma toNat_toWord (t : NativeType) (x : t.Carrier) :
    ((t.toWord x).toNat : Int) = t.number x % 2 ^ 64 := by
  have hnonneg := Int.emod_nonneg (t.number x) (b := 2 ^ 64) (by decide)
  have hlt := Int.emod_lt_of_pos (t.number x) (b := 2 ^ 64) (by decide)
  rw [toWord, UInt64.ofInt, UInt64.toNat_ofNat_of_lt' (by change _ < 2 ^ 64; omega)]
  exact Int.toNat_of_nonneg hnonneg

/-- The copies of the sign bit are above the width. -/
theorem truncate_toWord (t : NativeType) (x : t.Carrier) :
    t.width.truncate (t.toWord x) = FixedInteger.bits x := by
  have hdvd : (2 ^ t.width.bits : Int) ∣ 2 ^ 64 := by exact_mod_cast t.width.two_pow_bits_dvd
  have h : ((t.width.truncate (t.toWord x)).toNat : Int) = (FixedInteger.bits x).toNat := by
    rw [Width.toNat_truncate, t.toNat_bits_eq_emod]
    push_cast
    rw [t.toNat_toWord, Int.emod_emod_of_dvd _ hdvd]
  exact UInt64.toNat_inj.1 (by exact_mod_cast h)

end NativeType

/-! ### Scalars -/

/-- Sign extension gives the one integer in the signed range that has the low bits of the word. -/
lemma Width.toInt_signExtend_eq_iff (w : Width) (b : UInt64) (n : Int) :
    (w.signExtend b).toInt = n ↔
      (-2 ^ (w.bits - 1) ≤ n ∧ n < 2 ^ (w.bits - 1)) ∧
        n % 2 ^ w.bits = (b.toNat : Int) % 2 ^ w.bits := by
  have hrange := w.signedOf_range b.toNat
  have hmod := w.signedOf_emod b.toNat
  rw [w.toInt_signExtend]
  constructor
  · rintro rfl
    exact ⟨hrange, hmod⟩
  · rintro ⟨hn, hnmod⟩
    cases w <;> simp only [bits] at * <;> omega

namespace Scalar

/-- The number of a native type that is read in a scalar. -/
def reading (t : NativeType) (s : Scalar) : Int :=
  match t with
  | .signed _ => s.signed.toInt
  | .unsigned _ => s.unsigned.toNat

lemma signed_ofBits (w : Width) (b : UInt64) : (ofBits w b).signed = w.signExtend b := by
  change w.signExtend (w.truncate b) = _
  rw [← Int64.toInt_inj, Width.toInt_signExtend, Width.toInt_signExtend, Width.signedOf_truncate]

lemma eq_iff (s s' : Scalar) : s = s' ↔ s.width = s'.width ∧ s.bits = s'.bits := by
  constructor
  · rintro rfl
    exact ⟨rfl, rfl⟩
  · rintro ⟨hwidth, hbits⟩
    rw [← ofBits_width_bits s, hwidth, hbits, ofBits_width_bits]

/-- A native integer makes the scalar of its bits. -/
lemma bits_ofInteger (t : NativeType) (x : t.Carrier) :
    (ofInteger x).bits = FixedInteger.bits x := by
  change (FixedInteger.width t.Carrier).truncate _ = _
  rw [t.width_carrier, t.truncate_bits]

/-- The scalar of a native integer reads as its number. -/
lemma reading_ofInteger (t : NativeType) (x : t.Carrier) :
    reading t (ofInteger x) = t.number x := by
  cases t with
  | signed w =>
    rw [reading, signed, bits_ofInteger, Width.toInt_signExtend]
    rw [show (ofInteger x).width = w from NativeType.width_carrier _]
    exact NativeType.signedOf_bits w x
  | unsigned w =>
    rw [reading, unsigned, bits_ofInteger, NativeType.toNat_bits]

/-- A scalar may be stored as the native integer of its low bits. -/
lemma ofInteger_ofWord (t : NativeType) (b : UInt64) :
    ofInteger (t.ofWord b) = ofBits t.width b := by
  have hbits : (ofInteger (t.ofWord b)).bits = (ofBits t.width b).bits := by
    rw [bits_ofInteger, t.bits_ofWord]
    rfl
  exact (eq_iff _ _).2 ⟨t.width_carrier, hbits⟩

/-- **Words, scalars and native integers.** Cutting a word down is a remainder, sign extension gives
the one integer in the signed range with the low bits of the word, and the test of the sign bit
tells whether it is negative. The scalar of a word has the width and the low bits, read as unsigned
or by sign extension. A scalar is given by its width and its bits, and it may be stored as a native
integer of its width, signed or not. One made from a native integer reads as the same number and
gives the native integer back. -/
theorem readings_exact (w : Width) (b : UInt64) :
    (w.truncate b).toNat = b.toNat % 2 ^ w.bits ∧
    (∀ n : Int, (w.signExtend b).toInt = n ↔
      (-2 ^ (w.bits - 1) ≤ n ∧ n < 2 ^ (w.bits - 1)) ∧
        n % 2 ^ w.bits = (b.toNat : Int) % 2 ^ w.bits) ∧
    (w.isNegative b = true ↔ (w.signExtend b).toInt < 0) ∧
    ((ofBits w b).width = w ∧ (ofBits w b).bits = w.truncate b ∧
      (ofBits w b).unsigned = w.truncate b ∧ (ofBits w b).signed = w.signExtend b) ∧
    (∀ s : Scalar, ofBits s.width s.bits = s) ∧
    (∀ s s' : Scalar, s = s' ↔ s.width = s'.width ∧ s.bits = s'.bits) ∧
    ∀ t : NativeType, ofInteger (t.ofWord b) = ofBits t.width b ∧
      ∀ x : t.Carrier, (ofInteger x).width = t.width ∧ reading t (ofInteger x) = t.number x ∧
        t.ofWord (ofInteger x).bits = x := by
  refine ⟨w.toNat_truncate b, w.toInt_signExtend_eq_iff b, ?_,
    ⟨rfl, rfl, rfl, signed_ofBits w b⟩, ofBits_width_bits, eq_iff, fun t => ⟨?_, fun x => ?_⟩⟩
  · rw [w.isNegative_iff, w.toInt_signExtend]
  · exact ofInteger_ofWord t b
  · refine ⟨t.width_carrier, reading_ofInteger t x, ?_⟩
    rw [bits_ofInteger, t.ofWord_bits]

/-- The same bits read as `200` and as `-56`. -/
example : ofInteger (200 : UInt8) = ofInteger (-56 : Int8) := by decide

end Scalar

end FixedInt
