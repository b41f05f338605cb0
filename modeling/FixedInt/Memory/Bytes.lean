import FixedInt.Memory.Basic
import FixedInt.Memory.LittleEndian

/-!
A memory made of regions of bytes. Integers are stored with the lowest byte first, and every
access stays inside one region or is refused as a whole.
-/

namespace FixedInt

/-- A run of bytes that one allocation made. -/
structure Region where
  bytes : List UInt8
  length_lt : bytes.length < UInt64.size

namespace Region

def zeros (size : UInt64) : Region where
  bytes := List.replicate size.toNat 0
  length_lt := by simpa using size.toNat_lt

def size (r : Region) : Nat := r.bytes.length

/-- The `n` bytes from `start` on. -/
def slice (r : Region) (start n : Nat) : List UInt8 := (r.bytes.drop start).take n

/-- The region with `new` in place of the bytes from `start` on. What would lie past the end is
dropped. -/
def splice (r : Region) (start : Nat) (new : List UInt8) : Region where
  bytes := r.bytes.mapIdx fun i b => if start ≤ i then new[i - start]?.getD b else b
  length_lt := by simpa using r.length_lt

@[simp] theorem size_splice (r : Region) (start : Nat) (new : List UInt8) :
    (r.splice start new).size = r.size := by
  simp [splice, size]

end Region

/-- A memory of regions; the handle of a region is its place in the list. -/
structure ByteMemory where
  regions : List Region

namespace ByteMemory

def empty : ByteMemory := ⟨[]⟩

/-- The region of an address, if the `n` bytes from the address on lie in it. -/
def locate (m : ByteMemory) (a : Address) (n : Nat) : Except MemoryError Region :=
  match m.regions[a.region.toNat]? with
  | none => .error (.unknownRegion a.region)
  | some r => if a.offset.toNat + n ≤ r.size then .ok r else .error (.outOfBounds a n)

/-- Appends a region of zeros. Its handle is the number of regions before it, in 32 bits. -/
def allocate (size : UInt64) (m : ByteMemory) : Address × ByteMemory :=
  (⟨UInt32.ofNat m.regions.length, 0⟩, ⟨m.regions ++ [Region.zeros size]⟩)

/-- The bytes of the region of a handle. -/
def regionBytes? (m : ByteMemory) (region : UInt32) : Option (List UInt8) :=
  m.regions[region.toNat]?.map Region.bytes

/-- Puts bytes at an address, in the region that holds it. -/
def store (m : ByteMemory) (a : Address) (new : List UInt8) : ByteMemory :=
  ⟨m.regions.modify a.region.toNat (·.splice a.offset.toNat new)⟩

/-! ### Accesses -/

/-- Stores the low bytes of a word, the lowest first. -/
def write (a : Address) (off : Nat) (w : Width) (b : UInt64) : Access ByteMemory Unit := fun m =>
  match m.locate (a.withOffset off) w.bytes with
  | .ok _ => (.ok (), m.store (a.withOffset off) (LittleEndian.toBytes w.bytes b.toNat))
  | .error e => (.error e, m)

/-- Loads the number that the bytes stand for, the lowest first. -/
def read (a : Address) (off : Nat) (w : Width) : Access ByteMemory UInt64 := fun m =>
  match m.locate (a.withOffset off) w.bytes with
  | .ok r =>
    let bytes := r.slice (a.withOffset off).offset.toNat w.bytes
    (.ok (UInt64.ofNat (LittleEndian.ofBytes bytes)), m)
  | .error e => (.error e, m)

/-- Says yes if the bytes lie in one region. -/
def check (a : Address) (n : Nat) : Access ByteMemory Unit := fun m =>
  match m.locate a n with
  | .ok _ => (.ok (), m)
  | .error e => (.error e, m)

instance : Memory ByteMemory := ⟨write, read, check⟩

instance : Arena ByteMemory where
  empty := empty
  allocate := allocate
  contents m := m.regions.map Region.bytes

end ByteMemory

end FixedInt
