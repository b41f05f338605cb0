import FixedInt.Settings.Basic
import FixedInt.Toml.Printer
import FixedInt.Toml.Reader

/-!
Settings as TOML documents. A document has the keys `flag_repr` and `assume_policy` and the table
`flag_offsets`, each of them optional.
-/

namespace FixedInt

/-! ### Values -/

namespace Toml.Node

/-- Nothing is in the node. -/
def isVoid : Node → Bool
  | .emptyArray => true
  | .table _ es => es.isEmpty
  | _ => false

/-- The name of a choice: a string, or a table whose only key is the name and holds nothing. -/
def choice? : Node → Option String
  | .string s => some s
  | .table _ [(k, v)] => if v.isVoid then some k else none
  | _ => none

def offset? : Node → Option Nat
  | .integer n => if 0 ≤ n then some n.toNat else none
  | _ => none

/-- The offsets of entries that all hold one. -/
def entryOffsets? (es : Entries) : Option (List (String × Nat)) :=
  es.mapM fun e => e.2.offset?.map fun n => (e.1, n)

def offsets? : Node → Option FlagOffsets
  | .table _ es => (entryOffsets? es).map FlagOffsets.ofList
  | _ => none

end Toml.Node

/-! ### Reading -/

namespace Settings

open Toml

/-- The setting under a key, or the one that counts if the key is not there. -/
def setting? {α : Type} (es : Entries) (key : String) (absent : α) (read : Node → Option α) :
    Option α :=
  match es.lookup key with
  | none => some absent
  | some node => read node

/-- The keys of a document. -/
def documentKeys : List String := ["flag_repr", "assume_policy", "flag_offsets"]

/-- The settings of a table. No other keys may stand in it. -/
def ofEntries? (es : Entries) : Option Settings :=
  if es.all fun e => documentKeys.contains e.1 then do
    let flagStorage ← setting? es "flag_repr" .fourBytes fun n => n.choice? >>= FlagStorage.ofName?
    let assumptionPolicy ← setting? es "assume_policy" .ignore fun n =>
      n.choice? >>= AssumptionPolicy.ofName?
    let flagOffsets ← setting? es "flag_offsets" .empty Node.offsets?
    return { flagStorage, flagOffsets, assumptionPolicy }
  else none

/-- The settings of a document. The keys of its flag offsets must stand for widths. -/
def ofToml (text : String) : Except SettingsError Settings := do
  match read? text >>= ofEntries? with
  | none => .error .parse
  | some s =>
    let _ ← s.overrides
    return s

/-- The settings in the bytes of a file, or in no file. -/
def load : Option ByteArray → Except SettingsError Settings
  | none => .error .read
  | some bytes =>
    match String.fromUTF8? bytes with
    | none => .error .read
    | some text => ofToml text

/-! ### Writing -/

/-- The lines before those of the flag offsets. -/
def headLines (s : Settings) : List String :=
  [stringLine "flag_repr" s.flagStorage.name, stringLine "assume_policy" s.assumptionPolicy.name,
    "", "[flag_offsets]"]

/-- A line for each flag offset. -/
def offsetLines (s : Settings) : List String :=
  s.flagOffsets.entries.map fun e => integerLine e.1 e.2

/-- The document of the settings, every line ended by a line break. There is none if an offset is
too large for an integer of a document. -/
def toToml? (s : Settings) : Option String :=
  if s.flagOffsets.entries.all fun e => e.2 ≤ maxInteger then
    some (String.join ((s.headLines ++ s.offsetLines).map (· ++ "\n")))
  else none

end Settings

end FixedInt
