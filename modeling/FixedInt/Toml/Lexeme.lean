/-!
The words of TOML documents: blanks, comments and line ends, strings, keys and integers. Every
reader takes the characters that are left and gives what it read and what is left then, or
nothing if the characters do not start with such a word.
-/

namespace FixedInt.Toml

/-! ### Blanks, comments and lines -/

/-- A space or a tab. -/
def isBlank (c : Char) : Bool := c == ' ' || c == '\t'

/-- A character that may stand inside a line: any but the control characters, the tab excepted. -/
def isText (c : Char) : Bool := c == '\t' || (0x20 ≤ c.toNat && c.toNat != 0x7f)

def skipBlanks (s : List Char) : List Char := s.dropWhile isBlank

/-- What follows a line break. A carriage return alone is none. -/
def lineBreak? : List Char → Option (List Char)
  | '\n' :: r => some r
  | '\r' :: '\n' :: r => some r
  | _ => none

def skipLineBreak (s : List Char) : List Char := (lineBreak? s).getD s

def skipComment : List Char → List Char
  | '#' :: r => r.dropWhile isText
  | s => s

/-- What follows the end of a line: blanks and a comment may come first, and the end of the text
ends a line as well. -/
def lineEnd? (s : List Char) : Option (List Char) :=
  match skipComment (skipBlanks s) with
  | [] => some []
  | r => lineBreak? r

/-! ### Strings -/

/-- The character of an escape of one letter. -/
def shortEscape? : Char → Option Char
  | 'b' => some '\x08'
  | 't' => some '\t'
  | 'n' => some '\n'
  | 'f' => some '\x0c'
  | 'r' => some '\r'
  | '\x22' => some '\x22'
  | '\\' => some '\\'
  | _ => none

/-- The number of a digit, in either case. -/
def hexDigit? (c : Char) : Option Nat :=
  if '0' ≤ c ∧ c ≤ '9' then some (c.toNat - 48)
  else if 'a' ≤ c ∧ c ≤ 'f' then some (c.toNat - 87)
  else if 'A' ≤ c ∧ c ≤ 'F' then some (c.toNat - 55)
  else none

/-- The character whose code point the digits give, unless it is a surrogate or too large. -/
def hexEscape? (digits : List Char) : Option Char := do
  let n ← digits.foldlM (fun n c => (hexDigit? c).map (16 * n + ·)) 0
  if n.isValidChar then some (Char.ofNat n) else none

/-- Puts a character before a string that was read. -/
def prepend (c : Char) (r : Option (List Char × List Char)) : Option (List Char × List Char) :=
  r.map fun p => (c :: p.1, p.2)

/-- What follows the opening quote of a string in double quotes. In a string of several lines
line breaks stand for themselves, the closing quotes are three, with up to two quotes of the
string before them, and a backslash at the end of a line drops all blanks and line breaks that
follow. While `dropping`, such blanks are left out. -/
def basicRest (lines : Bool) : (dropping : Bool) → List Char → Option (List Char × List Char)
  | _, [] => none
  | _, '\x22' :: r =>
    match lines, r with
    | false, _ => some ([], r)
    | true, '\x22' :: '\x22' :: '\x22' :: '\x22' :: r => some (['\x22', '\x22'], r)
    | true, '\x22' :: '\x22' :: '\x22' :: r => some (['\x22'], r)
    | true, '\x22' :: '\x22' :: r => some ([], r)
    | true, r => prepend '\x22' (basicRest lines false r)
  | _, '\\' :: r =>
    match r with
    | 'u' :: a :: b :: c :: d :: r =>
      (hexEscape? [a, b, c, d]).bind fun x => prepend x (basicRest lines false r)
    | 'U' :: a :: b :: c :: d :: e :: f :: g :: h :: r =>
      (hexEscape? [a, b, c, d, e, f, g, h]).bind fun x => prepend x (basicRest lines false r)
    | c :: r' =>
      match shortEscape? c with
      | some x => prepend x (basicRest lines false r')
      | none =>
        if lines && (lineBreak? (skipBlanks (c :: r'))).isSome then basicRest lines true (c :: r')
        else none
    | [] => none
  | dropping, '\n' :: r =>
    if !lines then none
    else if dropping then basicRest lines true r
    else prepend '\n' (basicRest lines false r)
  | dropping, '\r' :: '\n' :: r =>
    if !lines then none
    else if dropping then basicRest lines true r
    else prepend '\n' (basicRest lines false r)
  | dropping, c :: r =>
    if dropping && isBlank c then basicRest lines true r
    else if isText c then prepend c (basicRest lines false r)
    else none

/-- What follows the opening quote of a string in single quotes, where nothing is escaped. -/
def literalRest (lines : Bool) : List Char → Option (List Char × List Char)
  | [] => none
  | '\x27' :: r =>
    match lines, r with
    | false, _ => some ([], r)
    | true, '\x27' :: '\x27' :: '\x27' :: '\x27' :: r => some (['\x27', '\x27'], r)
    | true, '\x27' :: '\x27' :: '\x27' :: r => some (['\x27'], r)
    | true, '\x27' :: '\x27' :: r => some ([], r)
    | true, r => prepend '\x27' (literalRest lines r)
  | '\n' :: r => if lines then prepend '\n' (literalRest lines r) else none
  | '\r' :: '\n' :: r => if lines then prepend '\n' (literalRest lines r) else none
  | c :: r => if isText c then prepend c (literalRest lines r) else none

/-- A string of any of the four kinds. A line break right after three opening quotes is left
out. -/
def string? (s : List Char) : Option (String × List Char) :=
  let read := match s with
    | '\x22' :: '\x22' :: '\x22' :: r => basicRest true false (skipLineBreak r)
    | '\x22' :: r => basicRest false false r
    | '\x27' :: '\x27' :: '\x27' :: r => literalRest true (skipLineBreak r)
    | '\x27' :: r => literalRest false r
    | _ => none
  read.map fun p => (String.ofList p.1, p.2)

/-! ### Keys -/

/-- A character of a key without quotes. -/
def isBare (c : Char) : Bool := c.isAlphanum || c == '_' || c == '-'

/-- A key: without quotes, or a string of one line. -/
def key? (s : List Char) : Option (String × List Char) :=
  let read := match s with
    | '\x22' :: r => basicRest false false r
    | '\x27' :: r => literalRest false r
    | _ => if s.takeWhile isBare = [] then none
      else some (s.takeWhile isBare, s.dropWhile isBare)
  read.map fun p => (String.ofList p.1, p.2)

/-- Keys joined by dots, with blanks around each. There are at most as many as the first argument
says. -/
def dottedKeys? : Nat → List Char → Option (List String × List Char)
  | 0, _ => none
  | n + 1, s => do
    let (k, r) ← key? (skipBlanks s)
    match skipBlanks r with
    | '.' :: r =>
      let (ks, r) ← dottedKeys? n r
      return (k :: ks, r)
    | r => return ([k], r)

def path? (s : List Char) : Option (List String × List Char) := dottedKeys? s.length s

/-! ### Integers -/

def maxInteger : Nat := 0x7fffffffffffffff

/-- Digits with single underscores between them. -/
def digitRun (p : Char → Bool) : List Char → List Char × List Char
  | [] => ([], [])
  | '_' :: c :: r =>
    if p c then
      let (ds, rest) := digitRun p r
      (c :: ds, rest)
    else ([], '_' :: c :: r)
  | c :: r =>
    if p c then
      let (ds, rest) := digitRun p r
      (c :: ds, rest)
    else ([], c :: r)

/-- A digit of a base up to 16. -/
def isDigitOf (base : Nat) (c : Char) : Bool := (hexDigit? c).any (· < base)

/-- The number that digits of a base give, from the first digit on. -/
def number? (base : Nat) (s : List Char) : Option (Nat × List Char) :=
  match s with
  | c :: _ =>
    if isDigitOf base c then
      let (ds, r) := digitRun (isDigitOf base) s
      some (ds.foldl (fun n c => base * n + (hexDigit? c).getD 0) 0, r)
    else none
  | [] => none

/-- A decimal number. A zero in front stands alone. -/
def decimal? : List Char → Option (Nat × List Char)
  | '0' :: r => some (0, r)
  | s => number? 10 s

/-- An integer: decimal with a sign or not, or in base 16, 8 or 2. It must fit 64 signed bits. -/
def integer? (s : List Char) : Option (Int × List Char) := do
  let (n, r) ← match s with
    | '0' :: 'x' :: r => (number? 16 r).map fun p => ((p.1 : Int), p.2)
    | '0' :: 'o' :: r => (number? 8 r).map fun p => ((p.1 : Int), p.2)
    | '0' :: 'b' :: r => (number? 2 r).map fun p => ((p.1 : Int), p.2)
    | '-' :: r => (decimal? r).map fun p => (-(p.1 : Int), p.2)
    | '+' :: r => (decimal? r).map fun p => ((p.1 : Int), p.2)
    | _ => (decimal? s).map fun p => ((p.1 : Int), p.2)
  if -(maxInteger : Int) - 1 ≤ n ∧ n ≤ maxInteger then some (n, r) else none

end FixedInt.Toml
