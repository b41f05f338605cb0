/-!
Integer widths. A word holds the bits of an integer of any of the four widths, zero-extended;
the operations here cut a word down to a width, test its sign bit and read it as a signed
integer, each by masks and shifts.
-/

namespace FixedInt

/-- The number of bits of an integer. -/
inductive Width where
  | w8
  | w16
  | w32
  | w64
  deriving DecidableEq

namespace Width

def all : List Width := [w8, w16, w32, w64]

def bits : Width → Nat
  | w8 => 8
  | w16 => 16
  | w32 => 32
  | w64 => 64

def bytes (w : Width) : Nat := w.bits / 8

def ofBits? : Nat → Option Width
  | 8 => some w8
  | 16 => some w16
  | 32 => some w32
  | 64 => some w64
  | _ => none

instance : ToString Width := ⟨fun w => s!"i{w.bits}"⟩

theorem ofBits?_eq_some_iff {n : Nat} {w : Width} : ofBits? n = some w ↔ w.bits = n := by
  constructor
  · intro h
    unfold ofBits? at h
    split at h <;> cases h <;> rfl
  · rintro rfl
    cases w <;> rfl

theorem bits_inj {v w : Width} : v.bits = w.bits ↔ v = w := by
  cases v <;> cases w <;> decide

/-! ### Words of a width -/

/-- The number of bits as a shift amount. -/
def shift (w : Width) : UInt64 := UInt64.ofNat w.bits

/-- All ones, which is also the largest unsigned value. -/
def mask : Width → UInt64
  | w64 => 0xffffffffffffffff
  | w => (1 <<< w.shift) - 1

def signBit (w : Width) : UInt64 := 1 <<< (w.shift - 1)

/-- The bits of the most negative signed value. -/
def signedMin (w : Width) : UInt64 := w.signBit

/-- The bits of the largest signed value. -/
def signedMax (w : Width) : UInt64 := w.mask >>> 1

/-- Keeps the bits of the width and clears the others. -/
def truncate (w : Width) (b : UInt64) : UInt64 := b &&& w.mask

def isNegative (w : Width) (b : UInt64) : Bool := b &&& w.signBit != 0

/-- The two's complement reading of the low bits: they are moved to the top of the word and
back with copies of the sign bit. Higher bits play no part. -/
def signExtend (w : Width) (b : UInt64) : Int64 :=
  (b <<< (64 - w.shift)).toInt64 >>> (64 - w.shift).toInt64

theorem truncate_truncate (w : Width) (b : UInt64) : w.truncate (w.truncate b) = w.truncate b := by
  simp [truncate, UInt64.and_assoc]

end Width

/-! ### One thing for each width -/

/-- A thing for each width. -/
structure PerWidth (α : Type) where
  w8 : α
  w16 : α
  w32 : α
  w64 : α
  deriving DecidableEq

namespace PerWidth

def get {α : Type} (p : PerWidth α) : Width → α
  | .w8 => p.w8
  | .w16 => p.w16
  | .w32 => p.w32
  | .w64 => p.w64

def ofFn {α : Type} (f : Width → α) : PerWidth α := ⟨f .w8, f .w16, f .w32, f .w64⟩

/-- The things that an effectful `f` gives, one width after another in ascending order. -/
def ofFnM {m : Type → Type} [Monad m] {α : Type} (f : Width → m α) : m (PerWidth α) := do
  return ⟨← f .w8, ← f .w16, ← f .w32, ← f .w64⟩

def toList {α : Type} (p : PerWidth α) : List α := [p.w8, p.w16, p.w32, p.w64]

@[simp] theorem get_ofFn {α : Type} (f : Width → α) (w : Width) : (ofFn f).get w = f w := by
  cases w <;> rfl

end PerWidth

end FixedInt
