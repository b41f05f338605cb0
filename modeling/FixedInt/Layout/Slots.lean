import FixedInt.Error

/-!
Where the value and the flag of a result are stored, for one width of value.
-/

namespace FixedInt

/-- The places of the value and the flag of a result. The value lies at offset 0. -/
structure ResultSlots where
  /-- The width of the value. -/
  width : Width
  flagOffset : Nat
  flagWidth : Width
  /-- The number of bytes from the start that have to be there for both. -/
  extent : Nat
  deriving DecidableEq

namespace ResultSlots

/-- A flag of four bytes behind the value, at a multiple of four. -/
def withFourByteFlag (w : Width) : ResultSlots :=
  let flagOffset := max w.bytes 4
  { width := w, flagOffset, flagWidth := .w32, extent := flagOffset + 4 }

/-- The places that the layout of an aggregate gives, if its flag is as wide as an integer and
its value has the width asked for. -/
def ofAggregate (w : Width) (p : AggregateLayout) : Except EvalError ResultSlots :=
  match Width.ofBits? (p.flagSize * 8) with
  | none => .error (.unsupported (.flagSize w p.flagSize))
  | some flagWidth =>
    if p.valueSize = w.bytes then
      .ok { width := w, flagOffset := p.flagOffset, flagWidth, extent := p.extent }
    else .error (.unsupported (.valueSize w p.valueSize))

end ResultSlots

end FixedInt
