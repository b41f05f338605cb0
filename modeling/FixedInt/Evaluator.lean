import FixedInt.Intrinsic
import FixedInt.Layout.Table
import FixedInt.Plan
import FixedInt.ResultStore
import FixedInt.Settings.Basic

/-!
The evaluator: where results of each width are stored, and what becomes of false assumptions.
It never changes once it is made.
-/

namespace FixedInt

/-- An evaluator. -/
structure Evaluator where
  slots : PerWidth ResultSlots
  assumptionPolicy : AssumptionPolicy

namespace Evaluator

variable {σ : Type}

/-! ### Making an evaluator -/

/-- Takes over the slots for a width, which must be of that width. -/
def adopt (w : Width) (slots : ResultSlots) : Action σ EvalError Unit :=
  if slots.width = w then Action.emit (.slots slots)
  else Action.fail (.unsupported (.misplacedSlots slots.width w))

/-- An evaluator with the slots given. -/
def ofSlots (slots : PerWidth ResultSlots) (policy : AssumptionPolicy) :
    Action σ EvalError Evaluator := do
  let _ ← PerWidth.ofFnM fun w => adopt w (slots.get w)
  return ⟨slots, policy⟩

/-- The layouts for a target in which all overrides are pinned, the last one of a width for
good. -/
def pinnedTable (target : Target) (flag : FlagStorage) (overrides : List Settings.Override) :
    LayoutTable :=
  overrides.foldl (fun t o => t.pin o.1.bits o.2) (.new target flag)

/-- An evaluator with the layouts of C aggregates on the host. -/
def ofSettings (s : Settings) : Action σ EvalError Evaluator := do
  let overrides ← Action.ofExcept (s.overrides.mapError .settings)
  let table := pinnedTable .host s.flagStorage overrides
  let layouts ← (Action.within table LayoutTable.allLayouts).mapError .layout
  let slots ← Action.ofExcept (PerWidth.ofFnM fun w => ResultSlots.ofAggregate w (layouts.get w))
  ofSlots slots s.assumptionPolicy

/-- An evaluator with the default settings. -/
def new : Action σ EvalError Evaluator := ofSettings {}

/-- The aggregate of a value and a flag of four bytes, both aligned to their sizes. -/
def fourByteAggregate (w : Width) : AggregateLayout := .ofTypes ⟨w.bytes, w.bytes⟩ ⟨4, 4⟩

/-- The slots for a width with a flag of four bytes. The first override of the width counts. -/
def fourByteSlots (overrides : List Settings.Override) (w : Width) :
    Except EvalError ResultSlots := do
  match overrides.lookup w with
  | some offset =>
    let p ← ((fourByteAggregate w).moveFlag w.bits offset).mapError .layout
    ResultSlots.ofAggregate w p
  | none => ResultSlots.ofAggregate w (fourByteAggregate w)

/-- An evaluator with flags of four bytes, for a host of which no target is known. -/
def ofSettingsWithoutTarget (s : Settings) : Action σ EvalError Evaluator :=
  if s.flagStorage = .fourBytes then do
    let overrides ← Action.ofExcept (s.overrides.mapError .settings)
    let slots ← Action.ofExcept (PerWidth.ofFnM (fourByteSlots overrides))
    ofSlots slots s.assumptionPolicy
  else Action.fail (.layout .unsupportedHost)

/-! ### Evaluation -/

/-- Computes at a width and stores the result at a destination, which is also the answer. -/
def arith [Memory σ] (e : Evaluator) (op : ArithOp) (w : Width) (left right : Scalar)
    (dest : Address) : Action σ EvalError Address := do
  let plan ← Action.ofExcept ((Operation.arith op).plan left.shape right.shape)
  if plan.width = w then
    let r ← plan.traceArith left right
    (e.slots.get w).store dest r
    return dest
  else Action.fail (.unsupported (.declaredWidth op w plan.width))

/-- Compares two vectors lane by lane. -/
def compare (_ : Evaluator) (p : Predicate) (left right : LaneVector) :
    Action σ EvalError (List Bool) :=
  p.traceCompare left right

/-- Takes note of an assumption. -/
def assume (e : Evaluator) (condition : Bool) : Action σ EvalError Unit :=
  if condition = false ∧ e.assumptionPolicy = .warn then Action.emit .falseAssumption
  else return ()

/-- Carries out an intrinsic, called by a name, on values. -/
def apply [Memory σ] (e : Evaluator) (i : Intrinsic) (name : String) (values : List Value) :
    Action σ EvalError Value :=
  match i, values with
  | .arith op w, [.address dest, .scalar left, .scalar right] => do
    return .address (← e.arith op w left right dest)
  | .compare p, [.vector left, .vector right] => do
    return .bools (← e.compare p left right)
  | .assume, [.bool condition] => do
    e.assume condition
    return .unit
  | _, _ => Action.fail (.unsupported (.callOperands name (values.map Value.shape)))

/-- Calls an intrinsic by name. The number of operands is looked at before the first one is read,
and they are read in order. -/
def call [Memory σ] {ι : Type} (e : Evaluator) (name : String) (operands : List ι)
    (read : ι → Except EvalError Value) : Action σ EvalError Value := do
  let i ← Action.ofExcept (Intrinsic.lookup name)
  if operands.length = i.arity then
    e.apply i name (← Action.ofExcept (operands.mapM read))
  else Action.fail (.arity name i.arity operands.length)

end Evaluator

end FixedInt
