import FixedInt.Action

/-!
Storing a result and its flag through an address, and loading them back.
-/

namespace FixedInt

variable {σ : Type} [Memory σ]

/-- Makes an access to the memory as part of an evaluation. -/
def Action.memory {α : Type} (x : Access σ α) : Action σ EvalError α :=
  (Action.access x).mapError .memory

namespace ResultSlots

/-- Stores a result: the value, then the flag as `1` or `0`. The whole extent is checked before
the first store. -/
def store (slots : ResultSlots) (dest : Address) (r : CheckedResult) : Action σ EvalError Unit :=
  if r.width = slots.width then do
    Action.memory (Memory.check dest slots.extent)
    Action.memory (Memory.write dest 0 slots.width r.value.bits)
    Action.memory (Memory.write dest slots.flagOffset slots.flagWidth r.overflow.toUInt64)
  else Action.fail (.unsupported (.resultWidth slots.width r.width))

/-- Loads a result. Any flag but zero is an overflow. -/
def load (slots : ResultSlots) (dest : Address) : Action σ EvalError CheckedResult := do
  let bits ← Action.memory (Memory.read dest 0 slots.width)
  let flag ← Action.memory (Memory.read dest slots.flagOffset slots.flagWidth)
  return ⟨.ofBits slots.width bits, flag != 0⟩

end ResultSlots

end FixedInt
