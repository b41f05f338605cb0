import FixedInt.Width

/-!
Integers of a width. A scalar is a width and a word whose bits lie within it; it carries no
sign, since that belongs to the operation: the bits of `-1` and of `255` at eight bits are one
scalar.
-/

namespace FixedInt

/-- An integer of a width, as its zero-extended bits. -/
structure Scalar where
  width : Width
  bits : UInt64
  fits : width.truncate bits = bits
  deriving DecidableEq

namespace Scalar

/-- The scalar of the low bits of a word. -/
def ofBits (w : Width) (b : UInt64) : Scalar := ⟨w, w.truncate b, w.truncate_truncate b⟩

/-- The bits read as two's complement. -/
def signed (s : Scalar) : Int64 := s.width.signExtend s.bits

/-- The bits read as a natural number. -/
def unsigned (s : Scalar) : UInt64 := s.bits

/-- The form in which log records name a scalar, such as `I8(-56)`. -/
def logText (s : Scalar) : String := s!"I{s.width.bits}({s.signed})"

theorem ofBits_width_bits (s : Scalar) : ofBits s.width s.bits = s := by
  cases s with
  | mk w b h => simp [ofBits, h]

end Scalar

/-! ### Native integers -/

/-- The integer types of a fixed width, signed and unsigned. -/
class FixedInteger (α : Type) where
  /-- The width of the type. -/
  width : Width
  /-- The two's complement bits, zero-extended. -/
  bits : α → UInt64

instance : FixedInteger UInt8 := ⟨.w8, UInt8.toUInt64⟩
instance : FixedInteger UInt16 := ⟨.w16, UInt16.toUInt64⟩
instance : FixedInteger UInt32 := ⟨.w32, UInt32.toUInt64⟩
instance : FixedInteger UInt64 := ⟨.w64, id⟩
instance : FixedInteger Int8 := ⟨.w8, fun x => x.toUInt8.toUInt64⟩
instance : FixedInteger Int16 := ⟨.w16, fun x => x.toUInt16.toUInt64⟩
instance : FixedInteger Int32 := ⟨.w32, fun x => x.toUInt32.toUInt64⟩
instance : FixedInteger Int64 := ⟨.w64, Int64.toUInt64⟩

/-- The scalar of a native integer. -/
def Scalar.ofInteger {α : Type} [FixedInteger α] (x : α) : Scalar :=
  .ofBits (FixedInteger.width α) (FixedInteger.bits x)

end FixedInt
