import FixedInt.Layout.Aggregate
import FixedInt.Operation
import FixedInt.Value

/-!
What can go wrong, as causes. Their texts stand in one place of their own.
-/

namespace FixedInt

/-- Why an operation lies outside what the evaluator supports. -/
inductive Unsupported where
  /-- The operands have not the shapes that the operation needs. -/
  | operands (operation : Operation) (left right : Shape)
  /-- The vectors have no lanes. -/
  | emptyVectors (predicate : Predicate)
  /-- A comparison was run as arithmetic. -/
  | notArithmetic (predicate : Predicate)
  /-- Arithmetic was run as a comparison. -/
  | notComparison (op : ArithOp)
  /-- Arithmetic planned for one width was run on scalars of others. -/
  | scalarWidths (op : ArithOp) (width left right : Width)
  /-- A comparison planned for one shape was run on a vector of another. -/
  | vectorShape (predicate : Predicate) (width : Width) (length : Nat) (found : Shape)
  /-- The operands have not the width that the caller declared. -/
  | declaredWidth (op : ArithOp) (declared found : Width)
  /-- A result has not the width of the slots it is to be stored in. -/
  | resultWidth (slots found : Width)
  /-- The flag of an aggregate is not as wide as an integer. -/
  | flagSize (width : Width) (bytes : Nat)
  /-- The value of an aggregate is not as wide as the integer to be stored. -/
  | valueSize (width : Width) (bytes : Nat)
  /-- The slots for one width were supplied for another. -/
  | misplacedSlots (supplied place : Width)
  /-- An intrinsic was called with operands of other kinds than it takes. -/
  | callOperands (name : String) (shapes : List Shape)
  /-- The host refused something of its own. -/
  | host (operation detail : String)
  deriving DecidableEq

/-- Why there are no settings. What the system or the reader of documents says beyond that is left
out. -/
inductive SettingsError where
  /-- There is no text to read. -/
  | read
  /-- The text is no document of settings. -/
  | parse
  /-- A key among the flag offsets names no width. -/
  | invalidKey (key : String)
  deriving DecidableEq

/-- Why an evaluation fails. -/
inductive EvalError where
  | unsupported (cause : Unsupported)
  /-- Two vectors differ in length or lane width. -/
  | shapeMismatch (leftLength : Nat) (leftWidth : Width) (rightLength : Nat) (rightWidth : Width)
  | memory (cause : MemoryError)
  | layout (cause : LayoutError)
  /-- No intrinsic has this name. -/
  | unknownIntrinsic (name : String)
  /-- An intrinsic was called with the wrong number of operands. -/
  | arity (name : String) (expected found : Nat)
  | settings (cause : SettingsError)
  deriving DecidableEq

end FixedInt
