import FixedInt.Action
import FixedInt.Comparison

/-!
Plans: how an operation is carried out, chosen from the shapes of its operands. No code is for a
single width; the width is part of the plan and is handed to the operation on words.
-/

namespace FixedInt

/-- An operation for operands of a known shape. -/
inductive Plan where
  | arith (op : ArithOp) (width : Width)
  | compare (predicate : Predicate) (width : Width) (length : Nat)
  deriving DecidableEq

/-- The plan for operands of two shapes. Arithmetic takes two scalars of one width, a comparison
two vectors of one width and one length above zero. -/
def Operation.plan (operation : Operation) (left right : Shape) : Except EvalError Plan :=
  match operation, left, right with
  | .arith op, .scalar lw, .scalar rw =>
    if lw = rw then .ok (.arith op lw)
    else .error (.unsupported (.operands operation left right))
  | .compare p, .vector lw ll, .vector rw rl =>
    if lw ≠ rw ∨ ll ≠ rl then .error (.shapeMismatch ll lw rl rw)
    else if ll = 0 then .error (.unsupported (.emptyVectors p))
    else .ok (.compare p lw ll)
  | _, _, _ => .error (.unsupported (.operands operation left right))

namespace Plan

def operation : Plan → Operation
  | arith op _ => .arith op
  | compare p _ _ => .compare p

def width : Plan → Width
  | arith _ w => w
  | compare _ w _ => w

/-! ### Carrying out a plan -/

def runArith (plan : Plan) (left right : Scalar) : Except EvalError CheckedResult :=
  match plan with
  | compare p _ _ => .error (.unsupported (.notArithmetic p))
  | arith op w =>
    if left.width = w ∧ right.width = w then
      let (bits, overflow) := op.wordOp w left.bits right.bits
      .ok ⟨.ofBits w bits, overflow⟩
    else .error (.unsupported (.scalarWidths op w left.width right.width))

def runCompare (plan : Plan) (left right : LaneVector) : Except EvalError (List Bool) :=
  match plan with
  | arith op _ => .error (.unsupported (.notComparison op))
  | compare p w n =>
    if left.width = w ∧ left.length = n then left.decideLanes (p.holds w) right
    else .error (.unsupported (.vectorShape p w n left.shape))

/-- Computes with two scalars and records the result. -/
def traceArith {σ : Type} (plan : Plan) (left right : Scalar) : Action σ EvalError CheckedResult :=
  match plan with
  | arith op _ => Action.traced (.arithmetic op left right) (plan.runArith left right)
  | compare .. => Action.ofExcept (plan.runArith left right)

def traceCompare {σ : Type} (plan : Plan) (left right : LaneVector) :
    Action σ EvalError (List Bool) :=
  match plan with
  | arith .. => Action.ofExcept (plan.runCompare left right)
  | compare p w n => Action.traced (.comparison p w n) (plan.runCompare left right)

end Plan

/-! ### In one step -/

/-- Computes with two scalars of one width. -/
def ArithOp.compute (op : ArithOp) (left right : Scalar) : Except EvalError CheckedResult := do
  (← (Operation.arith op).plan left.shape right.shape).runArith left right

/-- Computes with two scalars of one width and records the result. -/
def ArithOp.traceCompute {σ : Type} (op : ArithOp) (left right : Scalar) :
    Action σ EvalError CheckedResult := do
  (← Action.ofExcept ((Operation.arith op).plan left.shape right.shape)).traceArith left right

def Predicate.compare (p : Predicate) (left right : LaneVector) :
    Except EvalError (List Bool) := do
  (← (Operation.compare p).plan left.shape right.shape).runCompare left right

/-- Compares two vectors of one shape and records the result. -/
def Predicate.traceCompare {σ : Type} (p : Predicate) (left right : LaneVector) :
    Action σ EvalError (List Bool) := do
  (← Action.ofExcept ((Operation.compare p).plan left.shape right.shape)).traceCompare left right

end FixedInt
