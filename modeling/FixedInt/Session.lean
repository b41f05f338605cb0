import FixedInt.Evaluator
import FixedInt.Settings.Document

/-!
Sessions: an evaluator is made, and steps run one after another on one memory. A step that fails
ends nothing; the next one runs on the memory as it was left.
-/

namespace FixedInt

/-! ### Setting up -/

/-- Ways to say where value and flag of a result are stored. -/
inductive SlotsSpec where
  | fourByteFlag (width : Width)
  | aggregate (width : Width) (layout : AggregateLayout)
  | explicit (slots : ResultSlots)

def SlotsSpec.slots : SlotsSpec → Except EvalError ResultSlots
  | fourByteFlag w => .ok (.withFourByteFlag w)
  | aggregate w p => ResultSlots.ofAggregate w p
  | explicit slots => .ok slots

/-- Whether the target of the host is known. -/
inductive HostTarget where
  | known
  | unknown
  deriving DecidableEq

/-- Ways to make an evaluator. -/
inductive Setup where
  | settings (settings : Settings) (host : HostTarget)
  | document (text : String) (host : HostTarget)
  | slots (specs : PerWidth SlotsSpec) (policy : AssumptionPolicy)

namespace Setup

variable {σ : Type}

def ofSettings (s : Settings) : HostTarget → Action σ EvalError Evaluator
  | .known => Evaluator.ofSettings s
  | .unknown => Evaluator.ofSettingsWithoutTarget s

def build : Setup → Action σ EvalError Evaluator
  | settings s host => ofSettings s host
  | document text host => do
    ofSettings (← Action.ofExcept ((Settings.ofToml text).mapError .settings)) host
  | slots specs policy => do
    let slots ← Action.ofExcept (PerWidth.ofFnM fun w => (specs.get w).slots)
    Evaluator.ofSlots slots policy

end Setup

/-! ### Steps -/

/-- A request of the host. -/
inductive Step where
  | allocate (size : UInt64)
  /-- The bytes of a region. -/
  | bytes (region : UInt32)
  /-- The address a number of bytes further. -/
  | offset (address : Address) (bytes : Nat)
  /-- The slots that the evaluator uses for a width. -/
  | slots (width : Width)
  | write (address : Address) (offset : Nat) (width : Width) (bits : UInt64)
  | read (address : Address) (offset : Nat) (width : Width)
  | check (address : Address) (length : Nat)
  | arith (op : ArithOp) (width : Width) (left right : Scalar) (dest : Address)
  | compare (predicate : Predicate) (left right : LaneVector)
  /-- Calls an intrinsic. The operands are numbers by which the host finds their values. -/
  | call (name : String) (operands : List Nat) (find : Nat → Except EvalError Value)
  | store (slots : SlotsSpec) (dest : Address) (result : CheckedResult)
  | load (slots : SlotsSpec) (dest : Address)

inductive Answer where
  | done
  | address (address : Address)
  | bytes (bytes : Option (List UInt8))
  | slots (slots : ResultSlots)
  | word (bits : UInt64)
  | bools (values : List Bool)
  | value (value : Value)
  | result (result : CheckedResult)
  deriving DecidableEq

/-- Why a step gives nothing: the memory refused an access of the host, or an evaluation failed. -/
inductive Fault where
  | memory (cause : MemoryError)
  | eval (cause : EvalError)
  deriving DecidableEq

/-- Finds values in the slots of a frame. -/
def readFrame (frame : List Value) (slot : Nat) : Except EvalError Value :=
  match frame[slot]? with
  | some v => .ok v
  | none => .error (.unsupported (.host "read_value" s!"no operand in slot {slot}"))

namespace Step

variable {σ : Type}

/-- Turns what an access of the host gives into an answer. -/
def ofAccess {α : Type} (answer : α → Answer) (x : Access σ α) : Action σ Fault Answer := do
  return answer (← (Action.access x).mapError .memory)

/-- Turns what an evaluation gives into an answer. -/
def ofEval {α : Type} (answer : α → Answer) (x : Action σ EvalError α) : Action σ Fault Answer := do
  return answer (← x.mapError .eval)

def run [Arena σ] (e : Evaluator) : Step → Action σ Fault Answer
  | allocate size => ofAccess .address fun m =>
    let (address, m) := Arena.allocate size m
    (.ok address, m)
  | bytes region => ofAccess .bytes fun m => (.ok (Arena.contents m)[region.toNat]?, m)
  | offset address n => return .address (address.withOffset n)
  | slots w => return .slots (e.slots.get w)
  | write address off w b => ofAccess (fun _ => .done) (Memory.write address off w b)
  | read address off w => ofAccess .word (Memory.read address off w)
  | check address n => ofAccess (fun _ => .done) (Memory.check address n)
  | arith op w left right dest => ofEval .address (e.arith op w left right dest)
  | compare p left right => ofEval .bools (e.compare p left right)
  | call name operands find => ofEval .value (e.call name operands find)
  | store spec dest r => ofEval (fun _ => .done) do
    (← Action.ofExcept spec.slots).store dest r
  | load spec dest => ofEval .result do
    (← Action.ofExcept spec.slots).load dest

/-- Runs steps from a memory, each on what the ones before it left. -/
def runAll [Arena σ] (e : Evaluator) : List Step → σ → List (Outcome σ Fault Answer) :=
  Action.runAll (run e)

end Step

end FixedInt
