import FixedInt.Width

/-!
The relations in which two lanes can stand.
-/

namespace FixedInt

/-- A relation of two integers: equal or not, or an order of signed (`s`) or unsigned (`u`)
integers. -/
inductive Predicate where
  | eq
  | ne
  | slt
  | sle
  | sgt
  | sge
  | ult
  | ule
  | ugt
  | uge
  deriving DecidableEq

namespace Predicate

/-- The predicates in the order in which they are listed. -/
def all : List Predicate := [eq, ne, slt, sle, sgt, sge, ult, ule, ugt, uge]

/-- The name of the predicate. -/
def name : Predicate → String
  | eq => "eq"
  | ne => "ne"
  | slt => "slt"
  | sle => "sle"
  | sgt => "sgt"
  | sge => "sge"
  | ult => "ult"
  | ule => "ule"
  | ugt => "ugt"
  | uge => "uge"

/-- The predicate of a name. -/
def ofName? (s : String) : Option Predicate := all.find? (·.name == s)

instance : ToString Predicate := ⟨name⟩

/-- Decides the predicate for two lanes. The signed orders read the low bits at the width;
the others take the words as they are. -/
def holds (p : Predicate) (w : Width) (a b : UInt64) : Bool :=
  match p with
  | eq => a == b
  | ne => a != b
  | slt => w.signExtend a < w.signExtend b
  | sle => w.signExtend a ≤ w.signExtend b
  | sgt => w.signExtend a > w.signExtend b
  | sge => w.signExtend a ≥ w.signExtend b
  | ult => a < b
  | ule => a ≤ b
  | ugt => a > b
  | uge => a ≥ b

end Predicate

end FixedInt
