import FixedInt.Assoc
import FixedInt.Error

/-!
The settings of an evaluator: how flags are stored, where they are moved to, and what becomes of
false assumptions.
-/

namespace FixedInt

/-- What becomes of a false assumption. -/
inductive AssumptionPolicy where
  /-- Nothing. -/
  | ignore
  /-- It is recorded. -/
  | warn
  deriving DecidableEq

namespace AssumptionPolicy

/-- The name in settings. -/
def name : AssumptionPolicy → String
  | ignore => "ignore"
  | warn => "warn"

def ofName? (s : String) : Option AssumptionPolicy := [ignore, warn].find? (·.name == s)

end AssumptionPolicy

/-! ### Flag offsets -/

/-- Offsets of flags by the width of the value, written as a decimal number of bits. No key stands
twice, and the order of the entries means nothing. -/
structure FlagOffsets where
  entries : List (String × Nat)
  nodup : (Assoc.keys entries).Nodup

namespace FlagOffsets

def empty : FlagOffsets := ⟨[], List.nodup_nil⟩

/-- Gives an offset to a key, new or not. -/
def insert (key : String) (offset : Nat) (o : FlagOffsets) : FlagOffsets :=
  ⟨Assoc.put key offset o.entries, Assoc.nodup_put o.nodup⟩

/-- The offsets of a list; the last one of a key counts. -/
def ofList (entries : List (String × Nat)) : FlagOffsets :=
  entries.foldl (fun o e => o.insert e.1 e.2) empty

end FlagOffsets

/-! ### Settings -/

structure Settings where
  flagStorage : FlagStorage := .fourBytes
  flagOffsets : FlagOffsets := .empty
  assumptionPolicy : AssumptionPolicy := .ignore

namespace Settings

/-- The same settings, with the flag offsets in any order. -/
def Same (a b : Settings) : Prop :=
  a.flagStorage = b.flagStorage ∧ a.flagOffsets.entries.Perm b.flagOffsets.entries ∧
    a.assumptionPolicy = b.assumptionPolicy

instance (a b : Settings) : Decidable (Same a b) := by unfold Same; infer_instance

/-! ### Keys -/

/-- The number that decimal digits stand for. -/
def ofDigits (digits : List Char) : Nat :=
  digits.foldl (fun n c => 10 * n + (c.toNat - 48)) 0

/-- The number that a key stands for: decimal digits, with a plus sign in front or not. -/
def keyNumber? (key : String) : Option Nat :=
  let digits := match key.toList with
    | '+' :: cs => cs
    | cs => cs
  if digits ≠ [] ∧ digits.all Char.isDigit then some (ofDigits digits) else none

def keyWidth? (key : String) : Option Width := keyNumber? key >>= Width.ofBits?

/-! ### Overrides -/

/-- A width and the offset for its flag. -/
abbrev Override := Width × Nat

/-- By width, and by offset within a width. -/
def Override.le (a b : Override) : Bool :=
  a.1.bits < b.1.bits || (a.1 == b.1 && a.2 ≤ b.2)

def override (entry : String × Nat) : Except SettingsError Override :=
  match keyWidth? entry.1 with
  | some w => .ok (w, entry.2)
  | none => .error (.invalidKey entry.1)

/-- All flag offsets with their keys read as widths, in ascending order. -/
def overrides (s : Settings) : Except SettingsError (List Override) := do
  return (← s.flagOffsets.entries.mapM override).mergeSort Override.le

end Settings

end FixedInt
