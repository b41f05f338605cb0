import FixedInt.Layout.Slots

/-!
What is recorded while the evaluator works.
-/

namespace FixedInt

/-- How much a record matters. -/
inductive Level where
  | trace
  | debug
  | warn
  deriving DecidableEq

instance : ToString Level where
  toString
    | .trace => "TRACE"
    | .debug => "DEBUG"
    | .warn => "WARN"

inductive Event where
  /-- An operation gave a result. -/
  | arithmetic (op : ArithOp) (left right : Scalar) (result : CheckedResult)
  /-- Vectors of this width and length were compared. -/
  | comparison (predicate : Predicate) (width : Width) (length : Nat) (result : List Bool)
  /-- The layout of an aggregate for a width was computed. -/
  | aggregate (width : Nat) (layout : AggregateLayout)
  /-- An evaluator took over the slots for a width. -/
  | slots (slots : ResultSlots)
  /-- An assumption turned out false. -/
  | falseAssumption
  deriving DecidableEq

namespace Event

def level : Event → Level
  | arithmetic .. | comparison .. => .trace
  | aggregate .. | slots .. => .debug
  | falseAssumption => .warn

def text : Event → String
  | arithmetic op left right result =>
    s!"{Operation.arith op}.{left.width} {left.logText}, {right.logText}" ++
      s!" -> {result.value.logText} (overflow: {result.overflow})"
  | comparison p width length result =>
    s!"{Operation.compare p} {Shape.vector width length} -> [" ++
      String.intercalate ", " (result.map toString) ++ "]"
  | aggregate width p =>
    s!"aggregate layout for i{width}: flag at +{p.flagOffset} ({p.flagSize} bytes)" ++
      s!", size {p.size}, align {p.align}"
  | slots s =>
    s!"{s.width} writeback: flag {s.flagWidth} at +{s.flagOffset}, {s.extent} bytes written"
  | falseAssumption => "llvm.assume: condition is false"

instance : ToString Event := ⟨fun e => s!"{e.level} {e.text}"⟩

end Event

end FixedInt
