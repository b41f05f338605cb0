import FixedInt.ArithOp
import FixedInt.Predicate

/-!
Operations before the widths of their operands are known.
-/

namespace FixedInt

/-- Arithmetic with an overflow flag, or a comparison lane by lane. -/
inductive Operation where
  | arith (op : ArithOp)
  | compare (predicate : Predicate)
  deriving DecidableEq

instance : ToString Operation where
  toString
    | .arith op => s!"{op}.with.overflow"
    | .compare predicate => s!"icmp {predicate}"

end FixedInt
