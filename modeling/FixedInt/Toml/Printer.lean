import FixedInt.Toml.Lexeme

/-!
Writing keys and lines of TOML documents.
-/

namespace FixedInt.Toml

/-! ### Keys -/

/-- A character that a key in single quotes may hold. -/
def isLiteral (c : Char) : Bool := isText c && c != '\x27'

/-- The four digits of an escape. -/
def hex4 (n : Nat) : String :=
  let digits := (Nat.toDigits 16 n).map Char.toUpper
  String.ofList (List.replicate (4 - digits.length) '0' ++ digits)

/-- A character inside double quotes. -/
def escape (c : Char) : String :=
  match c with
  | '\x08' => "\\b"
  | '\t' => "\\t"
  | '\n' => "\\n"
  | '\x0c' => "\\f"
  | '\r' => "\\r"
  | '\x22' => "\\\""
  | '\\' => "\\\\"
  | c => if c.toNat < 0x20 ∨ c.toNat = 0x7f then "\\u" ++ hex4 c.toNat else String.singleton c

/-- A key: without quotes if that can be, in single quotes if that saves escapes and can be, else
in double quotes. -/
def keyText (key : String) : String :=
  let cs := key.toList
  if cs ≠ [] ∧ cs.all isBare then key
  else if cs.any (fun c => c == '\x22' || c == '\\') ∧ cs.all isLiteral then "'" ++ key ++ "'"
  else "\"" ++ String.join (cs.map escape) ++ "\""

/-! ### Lines -/

def integerLine (key : String) (n : Nat) : String := keyText key ++ " = " ++ toString n

/-- The line of a key with a string that needs no escapes. -/
def stringLine (key text : String) : String := keyText key ++ " = \"" ++ text ++ "\""

end FixedInt.Toml
