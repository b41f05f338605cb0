import FixedInt.Memory.Basic

/-!
Memories around a memory. One records every access before it passes it on; the other passes
stores and loads on but has no answer of its own to a range check.
-/

namespace FixedInt

/-- An access as it was asked for, whether it was refused or not. -/
inductive MemoryCall where
  | write (address : Address) (offset : Nat) (width : Width) (bits : UInt64)
  | read (address : Address) (offset : Nat) (width : Width)
  | check (address : Address) (length : Nat)
  deriving DecidableEq

instance : ToString MemoryCall where
  toString
    | .write a off w b => s!"write {a} {off} {w} {b}"
    | .read a off w => s!"read {a} {off} {w}"
    | .check a n => s!"check {a} {n}"

/-! ### Recording -/

/-- A memory and the accesses to it so far, the first one first. -/
structure Traced (σ : Type) where
  memory : σ
  calls : List MemoryCall

namespace Traced

variable {σ : Type}

/-- Records a call and makes the access on the memory inside. -/
def record {α : Type} (call : MemoryCall) (access : Access σ α) : Access (Traced σ) α := fun t =>
  let (answer, memory) := access t.memory
  (answer, ⟨memory, t.calls ++ [call]⟩)

instance [Memory σ] : Memory (Traced σ) where
  write a off w b := record (.write a off w b) (Memory.write a off w b)
  read a off w := record (.read a off w) (Memory.read a off w)
  check a n := record (.check a n) (Memory.check a n)

instance [Arena σ] : Arena (Traced σ) where
  empty := ⟨Arena.empty, []⟩
  allocate size t :=
    let (address, memory) := Arena.allocate size t.memory
    (address, ⟨memory, t.calls⟩)
  contents t := Arena.contents t.memory

end Traced

/-! ### Without a range check -/

/-- A memory that says yes to every range check. -/
structure Unchecked (σ : Type) where
  memory : σ

namespace Unchecked

variable {σ : Type}

/-- Makes the access on the memory inside. -/
def pass {α : Type} (access : Access σ α) : Access (Unchecked σ) α := fun u =>
  let (answer, memory) := access u.memory
  (answer, ⟨memory⟩)

instance [Memory σ] : Memory (Unchecked σ) where
  write a off w b := pass (Memory.write a off w b)
  read a off w := pass (Memory.read a off w)

instance [Arena σ] : Arena (Unchecked σ) where
  empty := ⟨Arena.empty⟩
  allocate size u :=
    let (address, memory) := Arena.allocate size u.memory
    (address, ⟨memory⟩)
  contents u := Arena.contents u.memory

end Unchecked

end FixedInt
