import FixedInt.Toml.Lexeme
import FixedInt.Toml.Table

/-!
Reading TOML documents whose values are strings, integers, empty arrays and tables. Other values
(fractions, dates, truth values, filled arrays and arrays of tables) are refused while reading,
since no setting can hold one.
-/

namespace FixedInt.Toml

/-! ### Values -/

/-- What follows the opening bracket of an empty array: blanks, line breaks and comments, and the
closing bracket. -/
def emptyArrayRest : (inComment : Bool) → List Char → Option (List Char)
  | false, ']' :: r => some r
  | false, '#' :: r => emptyArrayRest true r
  | _, '\n' :: r => emptyArrayRest false r
  | _, '\r' :: '\n' :: r => emptyArrayRest false r
  | true, c :: r => if isText c then emptyArrayRest true r else none
  | false, c :: r => if isBlank c then emptyArrayRest false r else none
  | _, [] => none

mutual

/-- A value. Each table in braces inside another takes one from the first argument, and so does
each entry of such a table; every one of them has a character of its own, so the length of the
text is enough. -/
def value? : Nat → List Char → Option (Node × List Char)
  | 0, _ => none
  | n + 1, s =>
    match s with
    | '[' :: r => (emptyArrayRest false r).map fun r => (.emptyArray, r)
    | '\x7b' :: r =>
      match skipBlanks r with
      | '\x7d' :: r => some (.table .inlined [], r)
      | r => (entries? n [] r).map fun p => (.table .inlined p.1, p.2)
    | c :: _ =>
      if c = '\x22' ∨ c = '\x27' then (string? s).map fun p => (.string p.1, p.2)
      else (integer? s).map fun p => (.integer p.1, p.2)
    | [] => none

/-- The entries of a table in braces, from some entry on, and the closing brace. There is no
comma before the brace. -/
def entries? : Nat → Entries → List Char → Option (Entries × List Char)
  | 0, _, _ => none
  | n + 1, es, s => do
    let (path, r) ← path? s
    match r with
    | '=' :: r =>
      let (v, r) ← value? n (skipBlanks r)
      let es ← es.insert path v
      match skipBlanks r with
      | ',' :: r => entries? n es r
      | '\x7d' :: r => return (es, r)
      | _ => none
    | _ => none

end

/-! ### Documents -/

/-- What a line says, apart from blanks and comments. -/
inductive Statement where
  /-- The entries that follow belong to the table of this path. -/
  | header (path : List String)
  /-- The value stands under this path in the current table. -/
  | entry (path : List String) (value : Node)

/-- The statement at the start of a line, and the lines after it. -/
def statement? (s : List Char) : Option (Statement × List Char) :=
  match s with
  | '[' :: r => do
    let (path, r) ← path? r
    match r with
    | ']' :: r => return (.header path, ← lineEnd? r)
    | _ => none
  | _ => do
    let (path, r) ← path? s
    match r with
    | '=' :: r =>
      let (v, r) ← value? s.length (skipBlanks r)
      return (.entry path v, ← lineEnd? r)
    | _ => none

/-- The statements of a text of at most as many lines as the first argument says. -/
def statements? : Nat → List Char → Option (List Statement)
  | 0, _ => none
  | n + 1, s =>
    match skipBlanks s with
    | [] => some []
    | s =>
      match lineEnd? s with
      | some r => statements? n r
      | none => do
        let (st, r) ← statement? s
        return st :: (← statements? n r)

/-- Takes a statement into the document. The path is that of the current table. -/
def Statement.apply (doc : List String × Entries) : Statement → Option (List String × Entries)
  | header path => (doc.2.openTable path).map fun es => (path, es)
  | entry path v => (doc.2.updateAt (·.insert path v) doc.1).map fun es => (doc.1, es)

/-- The table that statements build. -/
def build? (sts : List Statement) : Option Entries :=
  (sts.foldlM Statement.apply ([], [])).map Prod.snd

def skipMark : List Char → List Char
  | '\ufeff' :: r => r
  | s => s

/-- The table of a document. -/
def read? (text : String) : Option Entries := do
  let s := skipMark text.toList
  build? (← statements? (s.length + 1) s)

end FixedInt.Toml
