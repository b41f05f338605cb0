import FixedInt.Error

/-!
The intrinsics that the evaluator knows, and their names.
-/

namespace FixedInt

inductive Intrinsic where
  /-- Takes a destination and two scalars, and stores result and flag at the destination. -/
  | arith (op : ArithOp) (width : Width)
  /-- Takes two vectors and gives one truth value for each lane. -/
  | compare (predicate : Predicate)
  /-- Takes a truth value and gives nothing. -/
  | assume
  deriving DecidableEq

namespace Intrinsic

/-- The number of operands, the destination of a result among them. -/
def arity : Intrinsic → Nat
  | arith .. => 3
  | compare _ => 2
  | assume => 1

/-- The symbol of the intrinsic. -/
def name : Intrinsic → String
  | arith op w => s!"llvm.{op}.with.overflow.{w}"
  | compare p => s!"icmp.{p}"
  | assume => "llvm.assume"

instance : ToString Intrinsic := ⟨name⟩

def all : List Intrinsic :=
  ArithOp.all.flatMap (fun op => Width.all.map (arith op)) ++ Predicate.all.map compare ++ [assume]

def ofName? (s : String) : Option Intrinsic := all.find? (·.name == s)

/-- The intrinsic of a symbol, or the failure that names the symbol. -/
def lookup (s : String) : Except EvalError Intrinsic :=
  match ofName? s with
  | some i => .ok i
  | none => .error (.unknownIntrinsic s)

end Intrinsic

end FixedInt
