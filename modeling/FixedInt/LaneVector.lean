import FixedInt.Scalar

/-!
Vectors of integers that share one lane width, and the cursor that walks over their lanes.
-/

namespace FixedInt

/-- Integers of one width, as their zero-extended bits. The length never changes. -/
structure LaneVector where
  width : Width
  lanes : List UInt64
  fits : ∀ b ∈ lanes, width.truncate b = b
  deriving DecidableEq

namespace LaneVector

/-- The vector of the low bits of each word. -/
def ofBits (w : Width) (words : List UInt64) : LaneVector where
  width := w
  lanes := words.map w.truncate
  fits := by simp [Width.truncate_truncate]

/-- The vector of native integers. -/
def ofIntegers {α : Type} [FixedInteger α] (xs : List α) : LaneVector :=
  .ofBits (FixedInteger.width α) (xs.map FixedInteger.bits)

/-- The number of lanes. -/
def length (v : LaneVector) : Nat := v.lanes.length

/-- The bits of lane `i`, if there is one. -/
def lane? (v : LaneVector) (i : Nat) : Option UInt64 := v.lanes[i]?

end LaneVector

/-! ### Walking over the lanes -/

/-- A place among the lanes of a vector: the number of lanes already given out. -/
structure LaneCursor where
  vector : LaneVector
  index : Nat

/-- The cursor before the first lane. -/
def LaneVector.cursor (v : LaneVector) : LaneCursor := ⟨v, 0⟩

namespace LaneCursor

/-- Gives out the next lane. After the last one the cursor stays and gives nothing. -/
def next (c : LaneCursor) : Option UInt64 × LaneCursor :=
  match c.vector.lane? c.index with
  | some b => (some b, { c with index := c.index + 1 })
  | none => (none, c)

/-- The number of lanes still to come. -/
def remaining (c : LaneCursor) : Nat := c.vector.length - c.index

/-- What `n` requests give out, and the cursor after them. -/
def take : Nat → LaneCursor → List (Option UInt64) × LaneCursor
  | 0, c => ([], c)
  | n + 1, c =>
    let (lane, c) := c.next
    let (lanes, c) := take n c
    (lane :: lanes, c)

/-- Giving out a lane leaves one fewer to come. -/
theorem remaining_lt_of_next {c c' : LaneCursor} {b : UInt64} (h : c.next = (some b, c')) :
    c'.remaining < c.remaining := by
  unfold next at h
  split at h
  · next hb =>
    cases h
    have hlt := (List.getElem?_eq_some_iff.1 hb).1
    simp only [remaining, LaneVector.length]
    omega
  · cases h

/-- Takes lanes from two cursors in turn, until one of them gives nothing. -/
def zipWith {α : Type} (f : UInt64 → UInt64 → α) (c d : LaneCursor) : List α :=
  match _h : c.next with
  | (some a, c') =>
    match d.next with
    | (some b, d') => f a b :: zipWith f c' d'
    | (none, _) => []
  | (none, _) => []
termination_by c.remaining
decreasing_by exact remaining_lt_of_next ‹_›

end LaneCursor

end FixedInt
