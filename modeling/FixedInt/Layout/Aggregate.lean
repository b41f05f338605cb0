import FixedInt.Layout.CType

/-!
The layout of a C aggregate of a value and a flag. The value lies at offset 0, the flag behind it.
-/

namespace FixedInt

/-- Why an aggregate has no layout. Widths are numbers of bits, supported or not. Two types of a
known target can always be laid out, so that there is no failure of the layout rule itself. -/
inductive LayoutError where
  /-- No target is known for the machine in use. -/
  | unsupportedHost
  /-- No C type stores a value of this width. -/
  | unsupportedWidth (width : Nat)
  /-- The flag would lie on the value. -/
  | overlappingFlag (width offset : Nat)
  /-- The flag would not lie at a multiple of its size. -/
  | misalignedFlag (width offset align : Nat)
  /-- The flag has no bytes, so that no offset is a multiple of its size. -/
  | emptyFlag (width : Nat)
  deriving DecidableEq

/-- The least multiple of `align` that is not below `value`. Alignments 0 and 1 leave the value
as it is. -/
def roundUp (value align : Nat) : Nat :=
  if align ≤ 1 then value else (value + (align - 1)) / align * align

/-- The C type that stores a value of a width. -/
def CType.ofValueWidth (width : Nat) : Except LayoutError CType :=
  match width with
  | 8 => .ok .char
  | 16 => .ok .short
  | 32 => .ok .int
  | 64 => .ok .longLong
  | other => .error (.unsupportedWidth other)

/-- The layout of an aggregate, in bytes. -/
structure AggregateLayout where
  valueSize : Nat
  flagOffset : Nat
  flagSize : Nat
  size : Nat
  align : Nat
  deriving DecidableEq

namespace AggregateLayout

/-- The C layout of a value followed by a flag: each lies at the next multiple of its alignment,
and the size is a multiple of the larger alignment. -/
def ofTypes (value flag : TypeLayout) : AggregateLayout :=
  let flagOffset := roundUp value.size flag.align
  let align := max value.align flag.align
  { valueSize := value.size, flagOffset, flagSize := flag.size,
    size := roundUp (flagOffset + flag.size) align, align }

/-- The layout on a target of a value of the width and a flag. -/
def ofWidth (target : Target) (flag : FlagStorage) (width : Nat) :
    Except LayoutError AggregateLayout := do
  let value ← CType.ofValueWidth width
  return .ofTypes (target.typeLayout value) (target.typeLayout flag.cType)

/-- The number of bytes from the start through the end of value and flag. -/
def extent (p : AggregateLayout) : Nat := max p.valueSize (p.flagOffset + p.flagSize)

/-- Moves the flag. It must lie behind the value, at a multiple of its size; the aggregate grows
if need be. The width only names the aggregate in errors. -/
def moveFlag (p : AggregateLayout) (width offset : Nat) : Except LayoutError AggregateLayout :=
  if offset < p.valueSize then .error (.overlappingFlag width offset)
  else if p.flagSize = 0 then .error (.emptyFlag width)
  else if offset % p.flagSize ≠ 0 then .error (.misalignedFlag width offset p.flagSize)
  else .ok { p with
    flagOffset := offset
    size := roundUp (max (offset + p.flagSize) p.size) p.align }

end AggregateLayout

end FixedInt
