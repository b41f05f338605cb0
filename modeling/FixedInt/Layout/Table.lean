import FixedInt.Action

/-!
The aggregate layouts of one target, width by width. Flags can be pinned to offsets; every layout
is computed once and then kept until the flag of its width is pinned anew.
-/

namespace FixedInt

/-- A target, the storage of flags, the pinned flags and the layouts kept so far. The newest
entry of a width counts. -/
structure LayoutTable where
  target : Target
  flagStorage : FlagStorage
  /-- The offset to which the flag of a width is pinned. -/
  pinned : List (Nat × Nat)
  /-- The layout that was computed for a width. -/
  kept : List (Nat × AggregateLayout)

namespace LayoutTable

/-- The table in which nothing is pinned or kept. -/
def new (target : Target) (flagStorage : FlagStorage) : LayoutTable := ⟨target, flagStorage, [], []⟩

/-- Pins the flag of a width to an offset and drops the layout kept. The offset is looked at when
the layout is next asked for. -/
def pin (width offset : Nat) (t : LayoutTable) : LayoutTable :=
  { t with
    pinned := (width, offset) :: t.pinned
    kept := t.kept.filter (·.1 != width) }

/-- Keeps a layout. -/
def keep (width : Nat) (p : AggregateLayout) (t : LayoutTable) : LayoutTable :=
  { t with kept := (width, p) :: t.kept }

/-- The layout of a width, with its flag where it is pinned. -/
def compute (t : LayoutTable) (width : Nat) : Except LayoutError AggregateLayout := do
  let p ← AggregateLayout.ofWidth t.target t.flagStorage width
  match t.pinned.lookup width with
  | some offset => p.moveFlag width offset
  | none => return p

/-- The layout of a width, as it was kept or computed now. A failure is not kept. -/
def layout (width : Nat) : Action LayoutTable LayoutError AggregateLayout := do
  let t ← Action.get
  match t.kept.lookup width with
  | some p => return p
  | none =>
    let p ← Action.traced (Event.aggregate width) (t.compute width)
    Action.modify (keep width p)
    return p

/-- The layouts of the four widths, up to the first failure. -/
def allLayouts : Action LayoutTable LayoutError (PerWidth AggregateLayout) :=
  PerWidth.ofFnM fun w => layout w.bits

end LayoutTable

/-! ### Requests -/

/-- A request to a table. -/
inductive LayoutRequest where
  | pin (width offset : Nat)
  | layout (width : Nat)
  | allLayouts
  deriving DecidableEq

/-- What a request gives. -/
inductive LayoutAnswer where
  | done
  | layout (layout : AggregateLayout)
  | layouts (layouts : PerWidth AggregateLayout)
  deriving DecidableEq

namespace LayoutRequest

/-- Answers a request. -/
def run : LayoutRequest → Action LayoutTable LayoutError LayoutAnswer
  | pin width offset => do
    Action.modify (LayoutTable.pin width offset)
    return .done
  | layout width => return .layout (← LayoutTable.layout width)
  | allLayouts => return .layouts (← LayoutTable.allLayouts)

/-- Answers requests one after another, failures or not. -/
def runAll :
    List LayoutRequest → LayoutTable → List (Outcome LayoutTable LayoutError LayoutAnswer) :=
  Action.runAll run

end LayoutRequest

end FixedInt
