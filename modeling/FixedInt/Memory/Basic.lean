import FixedInt.Memory.Address
import FixedInt.Width

/-!
What the evaluator asks of a memory. The memory belongs to the host; the evaluator stores and
loads integers through addresses that it is handed, and asks before the first of several stores
whether all of them have room.
-/

namespace FixedInt

/-- An access to a memory: the answer or the refusal, and the memory after it. -/
abbrev Access (σ α : Type) := σ → Except MemoryError α × σ

/-- A memory that holds integers of every width. -/
class Memory (σ : Type) where
  /-- Stores the low bits of a word at an offset from an address. -/
  write : Address → Nat → Width → UInt64 → Access σ Unit
  /-- Loads the zero-extended integer at an offset from an address. -/
  read : Address → Nat → Width → Access σ UInt64
  /-- Asks whether a number of bytes from an address on can be written. A memory that cannot
  tell says yes. -/
  check : Address → Nat → Access σ Unit := fun _ _ m => (.ok (), m)

/-- A memory made of regions that are allocated one by one. -/
class Arena (σ : Type) extends Memory σ where
  /-- The memory without regions. -/
  empty : σ
  /-- A new region of a number of zero bytes, and its first address. -/
  allocate : UInt64 → σ → Address × σ
  /-- The bytes of every region, in the order of allocation. -/
  contents : σ → List (List UInt8)

end FixedInt
