import FixedInt.Error

/-!
The texts of errors: a stable code, advice where there is any, the message, and the message of
the error that lies beneath.
-/

namespace FixedInt

/-- What a user is told of an error. -/
structure Diagnostic where
  code : String
  help : Option String
  message : String
  /-- The message of the cause, where one error wraps another. -/
  source : Option String
  deriving DecidableEq

/-! ### Operations -/

/-- The operation at fault. -/
def Unsupported.operation : Unsupported → String
  | operands operation _ _ => toString operation
  | emptyVectors p | notArithmetic p | vectorShape p _ _ _ => toString (Operation.compare p)
  | notComparison op | scalarWidths op _ _ _ => toString (Operation.arith op)
  | declaredWidth op declared _ => s!"{Operation.arith op}.{declared}"
  | resultWidth w _ | flagSize w _ | valueSize w _ => s!"{w} writeback"
  | misplacedSlots _ _ => "writeback"
  | callOperands name _ => name
  | host operation _ => operation

/-- What is wrong with it. -/
def Unsupported.detail : Unsupported → String
  | operands (.arith _) left right =>
    s!"expected two integer scalars of one width, found {left} and {right}"
  | operands (.compare _) left right => s!"expected two integer vectors, found {left} and {right}"
  | emptyVectors _ => "vectors must have at least one lane"
  | notArithmetic _ => "not an arithmetic operation"
  | notComparison _ => "not a comparison"
  | scalarWidths _ width left right => s!"specialized for {width}, called with {left} and {right}"
  | vectorShape _ width length found =>
    s!"specialized for {Shape.vector width length}, called with {found}"
  | declaredWidth _ _ found => s!"operands are {found}"
  | resultWidth _ found => s!"result has width {found}"
  | flagSize _ bytes => s!"flag slot of {bytes} bytes"
  | valueSize _ bytes => s!"value slot of {bytes} bytes"
  | misplacedSlots supplied place => s!"layout for {supplied} supplied in the {place} slot"
  | callOperands _ shapes =>
    "operands of type (" ++ String.intercalate ", " (shapes.map toString) ++ ")"
  | host _ detail => detail

/-! ### Errors -/

/-- The text of a refusal of a memory. -/
def MemoryError.diagnostic : MemoryError → Diagnostic
  | outOfBounds address length =>
    ⟨"MEM-001", none, s!"Access of {length} bytes at {address} is out of bounds", none⟩
  | unknownRegion region => ⟨"MEM-002", none, s!"Unknown memory region {region}", none⟩

/-- The text of a failure to lay out an aggregate. -/
def LayoutError.diagnostic : LayoutError → Diagnostic
  | unsupportedHost =>
    ⟨"LAYOUT-001", some "Construct the layout computer with an explicit target",
      "No repc target description is available for this host", none⟩
  | unsupportedWidth width =>
    ⟨"LAYOUT-003", some "Supported widths are 8, 16, 32 and 64 bits",
      s!"Unsupported value width: {width} bits", none⟩
  | overlappingFlag width offset =>
    ⟨"LAYOUT-004", none, s!"Flag offset {offset} overlaps the {width}-bit value slot", none⟩
  | misalignedFlag width offset align =>
    ⟨"LAYOUT-005", none,
      s!"Flag offset {offset} for the {width}-bit aggregate is not aligned to {align} bytes", none⟩
  | emptyFlag width =>
    ⟨"LAYOUT-999", none, s!"The flag of the {width}-bit aggregate has no bytes", none⟩

/-- The text of a failure to read settings. -/
def SettingsError.diagnostic : SettingsError → Diagnostic
  | read =>
    ⟨"CONFIG-001", some "Check that the configuration file exists and is readable",
      "Error reading evaluator configuration", none⟩
  | parse =>
    ⟨"CONFIG-002", some "Keys are `flag_repr`, `assume_policy` and the `[flag_offsets]` table",
      "Invalid evaluator configuration", none⟩
  | invalidKey key =>
    ⟨"CONFIG-003", none,
      s!"Evaluator configuration rejected: flag_offsets key `{key}` is not one of 8, 16, 32 or 64",
      none⟩

/-- The text of a failed evaluation. An error in the settings stands for itself; those of a
memory and of a layout are wrapped. -/
def EvalError.diagnostic : EvalError → Diagnostic
  | unsupported cause =>
    ⟨"EVAL-001",
      some "Operands reaching the evaluator must already be typed as i8, i16, i32 or i64",
      s!"Unsupported operation {cause.operation}: {cause.detail}", none⟩
  | shapeMismatch ll lw rl rw =>
    ⟨"EVAL-002",
      some "Both operands of a vector comparison must have the same length and lane width",
      s!"Vector shape mismatch: {Shape.vector lw ll} vs {Shape.vector rw rl}", none⟩
  | memory cause =>
    let inner := cause.diagnostic.message
    ⟨"EVAL-003", none, s!"Memory access failed: {inner}", some inner⟩
  | layout cause =>
    let inner := cause.diagnostic.message
    ⟨"EVAL-004", none, s!"Aggregate layout error: {inner}", some inner⟩
  | unknownIntrinsic name => ⟨"EVAL-005", none, s!"Unknown intrinsic: {name}", none⟩
  | arity name expected found =>
    ⟨"EVAL-006", none, s!"Intrinsic {name} expects {expected} operands, found {found}", none⟩
  | settings cause => cause.diagnostic

end FixedInt
