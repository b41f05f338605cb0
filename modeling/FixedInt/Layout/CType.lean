/-!
The C types of the two fields of an aggregate, and how the supported targets store them.
-/

namespace FixedInt

/-- The C types that hold a value or a flag. -/
inductive CType where
  | char
  | unsignedChar
  | short
  | int
  | longLong
  deriving DecidableEq

/-- The size of a type and the multiple at which it is placed, in bytes. -/
structure TypeLayout where
  size : Nat
  align : Nat
  deriving DecidableEq

/-- How a machine stores the C types. -/
structure Target where
  /-- Of either sign. -/
  char : TypeLayout
  short : TypeLayout
  int : TypeLayout
  longLong : TypeLayout
  deriving DecidableEq

namespace Target

/-- Every type is aligned to its size. -/
def x86_64Linux : Target := ⟨⟨1, 1⟩, ⟨2, 2⟩, ⟨4, 4⟩, ⟨8, 8⟩⟩

/-- Eight bytes are aligned no more than an `int`. -/
def i686Linux : Target := { x86_64Linux with longLong := ⟨8, 4⟩ }

def i686Msvc : Target := x86_64Linux

/-- An `int` has two bytes, and no type is aligned to more. -/
def msp430 : Target := ⟨⟨1, 1⟩, ⟨2, 2⟩, ⟨2, 2⟩, ⟨8, 2⟩⟩

/-- An `int` has two bytes, and no type is aligned. -/
def avr : Target := ⟨⟨1, 1⟩, ⟨2, 1⟩, ⟨2, 1⟩, ⟨8, 1⟩⟩

/-- The machine that the evaluator itself runs on. -/
def host : Target := x86_64Linux

/-- How the target stores a type. -/
def typeLayout (t : Target) : CType → TypeLayout
  | .char | .unsignedChar => t.char
  | .short => t.short
  | .int => t.int
  | .longLong => t.longLong

end Target

/-! ### The flag -/

/-- How an overflow flag is stored: in one byte or in four. -/
inductive FlagStorage where
  | oneByte
  | fourBytes
  deriving DecidableEq

namespace FlagStorage

/-- The number of bytes that are meant for the flag. -/
def bytes : FlagStorage → Nat
  | oneByte => 1
  | fourBytes => 4

/-- The name in settings. -/
def name : FlagStorage → String
  | oneByte => "i8"
  | fourBytes => "i32"

/-- The storage of a name. -/
def ofName? (s : String) : Option FlagStorage := [oneByte, fourBytes].find? (·.name == s)

/-- The C type that stores the flag. -/
def cType : FlagStorage → CType
  | oneByte => .unsignedChar
  | fourBytes => .int

end FlagStorage

end FixedInt
