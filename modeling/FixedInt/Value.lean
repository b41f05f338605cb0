import FixedInt.LaneVector
import FixedInt.Memory.Address

/-!
The values that go into an operation or come out of it, and their shapes, by which operations
are chosen.
-/

namespace FixedInt

/-- The type of a value, with the number of lanes of a vector. -/
inductive Shape where
  | scalar (width : Width)
  | vector (width : Width) (length : Nat)
  | bool
  | bools (length : Nat)
  | address
  | unit
  deriving DecidableEq

instance : ToString Shape where
  toString
    | .scalar w => toString w
    | .vector w n => s!"<{n} x {w}>"
    | .bool => "i1"
    | .bools n => s!"<{n} x i1>"
    | .address => "ptr"
    | .unit => "void"

/-- A value that the host passes in or gets back. -/
inductive Value where
  | scalar (value : Scalar)
  | vector (value : LaneVector)
  | bool (value : Bool)
  /-- One truth value for each lane. -/
  | bools (values : List Bool)
  | address (value : Address)
  | unit
  deriving DecidableEq

/-- The shape of a scalar. -/
def Scalar.shape (s : Scalar) : Shape := .scalar s.width

/-- The shape of a vector. -/
def LaneVector.shape (v : LaneVector) : Shape := .vector v.width v.length

/-- The shape of a value. -/
def Value.shape : Value → Shape
  | .scalar s => s.shape
  | .vector v => v.shape
  | .bool _ => .bool
  | .bools values => .bools values.length
  | .address _ => .address
  | .unit => .unit

end FixedInt
