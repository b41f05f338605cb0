/-!
Addresses: a region and an offset into it.
-/

namespace FixedInt

/-- A place in a memory: the handle of a region and an offset in bytes. -/
structure Address where
  region : UInt32
  offset : UInt64
  deriving DecidableEq

namespace Address

/-- The address a number of bytes further in the same region. Offsets wrap at `2 ^ 64`. -/
def withOffset (a : Address) (bytes : Nat) : Address :=
  { a with offset := a.offset + UInt64.ofNat bytes }

/-- The offset in lower-case hexadecimal digits. -/
def hexOffset (a : Address) : String := String.ofList (Nat.toDigits 16 a.offset.toNat)

instance : ToString Address := ⟨fun a => s!"r{a.region}+0x{a.hexOffset}"⟩

end Address

inductive MemoryError where
  /-- The bytes from the address on do not all lie in its region. -/
  | outOfBounds (address : Address) (length : Nat)
  /-- No region has this handle. -/
  | unknownRegion (region : UInt32)
  deriving DecidableEq

end FixedInt
