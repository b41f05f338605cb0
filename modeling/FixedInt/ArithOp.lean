import FixedInt.Scalar
import FixedInt.WordOp

/-!
The six arithmetic operations with an overflow flag, their names, and the value they produce.
-/

namespace FixedInt

/-- An arithmetic operation. Whether the operands are signed (`s`) or unsigned (`u`) is part of
it. -/
inductive ArithOp where
  | sadd
  | ssub
  | smul
  | uadd
  | usub
  | umul
  deriving DecidableEq

namespace ArithOp

/-- The operations in the order in which they are listed. -/
def all : List ArithOp := [sadd, ssub, smul, uadd, usub, umul]

/-- Whether the operands are read as signed. -/
def isSigned : ArithOp → Bool
  | sadd | ssub | smul => true
  | uadd | usub | umul => false

/-- The name of the operation, also inside the symbols of intrinsics. -/
def name : ArithOp → String
  | sadd => "sadd"
  | ssub => "ssub"
  | smul => "smul"
  | uadd => "uadd"
  | usub => "usub"
  | umul => "umul"

/-- The operation of a name. -/
def ofName? (s : String) : Option ArithOp := all.find? (·.name == s)

instance : ToString ArithOp := ⟨name⟩

/-- The operation on words that lie within the width. -/
def wordOp : ArithOp → WordOp
  | sadd => WordOp.signedAdd
  | ssub => WordOp.signedSub
  | smul => WordOp.signedMul
  | uadd => WordOp.unsignedAdd
  | usub => WordOp.unsignedSub
  | umul => WordOp.unsignedMul

/-- The operation on the low bits of any two words. -/
def onWords (op : ArithOp) (w : Width) (a b : UInt64) : UInt64 × Bool :=
  op.wordOp w (w.truncate a) (w.truncate b)

end ArithOp

/-- The wrapped result of an operation and its overflow flag. -/
structure CheckedResult where
  value : Scalar
  overflow : Bool
  deriving DecidableEq

/-- The width of the result. -/
def CheckedResult.width (r : CheckedResult) : Width := r.value.width

end FixedInt
