import FixedInt.Width

/-!
Arithmetic on words with an overflow flag. Every operation gets two words that are already cut
down to the width and gives the wrapped result and whether the exact result lies outside the
range of the width. The tests look at words alone: sign bits for signed sums, an order of words
for unsigned ones, a second look at the product for multiplication.
-/

namespace FixedInt

/-- An operation on words of a width: the bits of the result and the overflow flag. -/
abbrev WordOp := Width → UInt64 → UInt64 → UInt64 × Bool

namespace WordOp

/-! ### Sums and differences -/

/-- A signed sum overflows when both operands have one sign and the result has the other. -/
def signedAdd : WordOp := fun w a b =>
  let r := w.truncate (a + b)
  (r, w.isNegative ((a ^^^ r) &&& (b ^^^ r)))

/-- A signed difference overflows when the operands differ in sign and the result has not the
sign of the first. -/
def signedSub : WordOp := fun w a b =>
  let r := w.truncate (a - b)
  (r, w.isNegative ((a ^^^ b) &&& (a ^^^ r)))

/-- An unsigned sum overflows when it wraps to less than an operand. -/
def unsignedAdd : WordOp := fun w a b =>
  let r := w.truncate (a + b)
  (r, r < a)

/-- An unsigned difference overflows when the second operand is the larger. -/
def unsignedSub : WordOp := fun w a b => (w.truncate (a - b), a < b)

/-! ### Signed products -/

/-- Whether the product of two 64-bit integers overflows. A zero never does, and `-1` only
turns the smallest integer around; else the wrapped product `r` is exact when dividing it by `b`
gives `a` back, since a wrap moves it by a multiple of `2 ^ 64`. -/
def signedWideOverflow (a b r : Int64) : Bool :=
  if a = 0 ∨ b = 0 then false
  else if b = -1 then a = Int64.minValue
  else r / b != a

/-- The signed product at 64 bits, where no wider word holds the exact product. -/
def signedMulWide (a b : Int64) : UInt64 × Bool :=
  ((a * b).toUInt64, signedWideOverflow a b (a * b))

/-- A signed product. Below 64 bits a word holds the exact product, which overflows when its
low bits do not read back as it. -/
def signedMul : WordOp := fun w a b =>
  if w = .w64 then signedMulWide a.toInt64 b.toInt64
  else
    let product := w.signExtend a * w.signExtend b
    let r := w.truncate product.toUInt64
    (r, w.signExtend r != product)

/-! ### Unsigned products -/

/-- The largest half word. -/
def halfMask : UInt64 := 0xffffffff

/-- The upper 32 bits. -/
def highHalf (a : UInt64) : UInt64 := a >>> 32

/-- The lower 32 bits. -/
def lowHalf (a : UInt64) : UInt64 := a &&& halfMask

/-- The middle part of a product of half words, which counts `2 ^ 32` times. -/
def cross (a b : UInt64) : UInt64 := highHalf a * lowHalf b + lowHalf a * highHalf b

/-- Whether a sum of words needs a 65th bit. -/
def carries (a b : UInt64) : Bool := UInt64.size ≤ a.toNat + b.toNat

/-- Whether the product of two 64-bit words overflows: two upper halves do at once, else the
middle part must fit a half word and must not carry when it is added to the lower part. -/
def unsignedWideOverflow (a b : UInt64) : Bool :=
  if highHalf a ≠ 0 ∧ highHalf b ≠ 0 then true
  else if cross a b > halfMask then true
  else carries (lowHalf a * lowHalf b) (cross a b <<< 32)

/-- The unsigned product at 64 bits, by half words. -/
def unsignedMulWide (a b : UInt64) : UInt64 × Bool := (a * b, unsignedWideOverflow a b)

/-- An unsigned product. Below 64 bits a word holds the exact product. -/
def unsignedMul : WordOp := fun w a b =>
  if w = .w64 then unsignedMulWide a b
  else (w.truncate (a * b), a * b > w.mask)

end WordOp

end FixedInt
