import FixedInt.Assoc

/-!
Tables of TOML documents, and the rules by which headers and dotted keys build them. A table is
open to additions only in the way it was begun.
-/

namespace FixedInt.Toml

/-- How a table came to be. -/
inductive TableKind where
  /-- By a header of its own. -/
  | headed
  /-- By the header of a table inside it. -/
  | implied
  /-- By a dotted key. -/
  | dotted
  /-- Between braces. -/
  | inlined
  deriving DecidableEq

inductive Node where
  | string (text : String)
  | integer (value : Int)
  | emptyArray
  | table (kind : TableKind) (entries : List (String × Node))

/-- The entries of a table, in the order in which they were added. -/
abbrev Entries := List (String × Node)

namespace Entries

/-- Opens the table that a header names. Tables on the way are entered or implied. The last one
must be new or so far only implied. -/
def openTable : List String → Entries → Option Entries
  | [], _ => none
  | [k], es =>
    match es.lookup k with
    | none => some (Assoc.put k (.table .headed []) es)
    | some (.table .implied sub) => some (Assoc.put k (.table .headed sub) es)
    | some _ => none
  | k :: ks, es =>
    match es.lookup k with
    | none => (openTable ks []).map fun sub => Assoc.put k (.table .implied sub) es
    | some (.table .inlined _) => none
    | some (.table kind sub) => (openTable ks sub).map fun sub => Assoc.put k (.table kind sub) es
    | some _ => none

/-- Adds a value under a dotted key. Tables on the way are entered if no header or brace closed
them, and made if there are none; the table that gets the value must have been made by dotted
keys, unless the key has a single part. A key is never given twice. -/
def insert : List String → Node → Entries → Option Entries
  | [], _, _ => none
  | [k], value, es => if (es.lookup k).isSome then none else some (Assoc.put k value es)
  | k :: ks, value, es =>
    match es.lookup k with
    | none => (insert ks value []).map fun sub => Assoc.put k (.table .dotted sub) es
    | some (.table .dotted sub) =>
      (insert ks value sub).map fun sub => Assoc.put k (.table .dotted sub) es
    | some (.table .implied sub) =>
      if ks.length = 1 then none
      else (insert ks value sub).map fun sub => Assoc.put k (.table .implied sub) es
    | some _ => none

/-- Changes the table at a path. -/
def updateAt (f : Entries → Option Entries) : List String → Entries → Option Entries
  | [], es => f es
  | k :: ks, es =>
    match es.lookup k with
    | some (.table kind sub) =>
      (updateAt f ks sub).map fun sub => Assoc.put k (.table kind sub) es
    | _ => none

end Entries

end FixedInt.Toml
