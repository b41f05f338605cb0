import FixedInt.Proofs.Arithmetic

/-!
The steps of arithmetic that the operations take without a look at whether they overflow. Each
operation is written out once more with the list of these steps, as the branches that it goes
through take them. Every step that is taken turns out to be exact, so that a build that stops at an
overflow gives the same results as one that wraps.
-/

namespace FixedInt

/-! ### Steps -/

/-- A step of arithmetic on machine words that is not checked where it is taken. A sum that is
meant to wrap, or whose carry is asked for, is no such step. -/
inductive WordStep where
  /-- A sum of parts of which at most one is meant to differ from zero. -/
  | sum (x y : UInt64)
  | difference (x y : UInt64)
  | product (x y : UInt64)
  | signedProduct (x y : Int64)
  | quotient (x y : Int64)
  /-- A shift to the left that stands for a product with a power of two. -/
  | scale (x k : UInt64)
  /-- A shift that moves bits out of the word on purpose. -/
  | shift (k : UInt64)
  deriving DecidableEq

namespace WordStep

/-- The step does what it is meant to do: its result is there, and no bit of it is lost. -/
def Exact : WordStep → Prop
  | sum x y => (x = 0 ∨ y = 0) ∧ x.toNat + y.toNat < 2 ^ 64
  | difference x y => y.toNat ≤ x.toNat
  | product x y => x.toNat * y.toNat < 2 ^ 64
  | signedProduct x y => -2 ^ 63 ≤ x.toInt * y.toInt ∧ x.toInt * y.toInt < 2 ^ 63
  | quotient x y => y ≠ 0 ∧ ¬ (x = Int64.minValue ∧ y = -1)
  | scale x k => k.toNat < 64 ∧ x.toNat * 2 ^ k.toNat < 2 ^ 64
  | shift k => k.toNat < 64

instance : DecidablePred Exact
  | sum x y => inferInstanceAs (Decidable ((x = 0 ∨ y = 0) ∧ x.toNat + y.toNat < 2 ^ 64))
  | difference x y => inferInstanceAs (Decidable (y.toNat ≤ x.toNat))
  | product x y => inferInstanceAs (Decidable (x.toNat * y.toNat < 2 ^ 64))
  | signedProduct x y => inferInstanceAs
      (Decidable (-2 ^ 63 ≤ x.toInt * y.toInt ∧ x.toInt * y.toInt < 2 ^ 63))
  | quotient x y => inferInstanceAs (Decidable (y ≠ 0 ∧ ¬ (x = Int64.minValue ∧ y = -1)))
  | scale x k => inferInstanceAs (Decidable (k.toNat < 64 ∧ x.toNat * 2 ^ k.toNat < 2 ^ 64))
  | shift k => inferInstanceAs (Decidable (k.toNat < 64))

end WordStep

/-- How a program is built: to stop at an overflow, or to go on with the low bits. -/
inductive Build where
  | checked
  | wrapping

/-- The step stops the program. A quotient that is not there stops every build. A checked build
also stops at a result that is out of range and at a shift by 64 bits or more, but not at bits that
a shift loses. -/
def Build.stops : Build → WordStep → Bool
  | _, .quotient x y => y = 0 ∨ x = Int64.minValue ∧ y = -1
  | .wrapping, _ => false
  | .checked, .sum x y => 2 ^ 64 ≤ x.toNat + y.toNat
  | .checked, .difference x y => x.toNat < y.toNat
  | .checked, .product x y => 2 ^ 64 ≤ x.toNat * y.toNat
  | .checked, .signedProduct x y => x.toInt * y.toInt < -2 ^ 63 ∨ 2 ^ 63 ≤ x.toInt * y.toInt
  | .checked, .scale _ k | .checked, .shift k => 64 ≤ k.toNat

lemma Build.stops_eq_false {s : WordStep} (h : s.Exact) (build : Build) :
    build.stops s = false := by
  cases build <;> cases s <;> simp_all [stops, WordStep.Exact]

/-! ### Values with their steps -/

/-- A value with the steps that are taken to compute it, in their order. -/
structure Stepwise (α : Type) where
  value : α
  steps : List WordStep

namespace Stepwise

variable {α β : Type}

instance : Monad Stepwise where
  pure a := ⟨a, []⟩
  bind x f := ⟨(f x.value).value, x.steps ++ (f x.value).steps⟩

/-- What a build comes to: the value, or nothing if one of the steps stops it. -/
def run (build : Build) (x : Stepwise α) : Option α :=
  if x.steps.any build.stops then none else some x.value

/-- The value is `a`, and no step on the way to it goes wrong. -/
structure Gives (x : Stepwise α) (a : α) : Prop where
  value : x.value = a
  exact : ∀ s ∈ x.steps, s.Exact

lemma gives_pure (a : α) : (pure a : Stepwise α).Gives a := ⟨rfl, List.forall_mem_nil _⟩

lemma Gives.bind {x : Stepwise α} {f : α → Stepwise β} {a : α} {b : β} (hx : x.Gives a)
    (hf : (f a).Gives b) : (x >>= f).Gives b := by
  obtain ⟨rfl, hsteps⟩ := hx
  refine ⟨hf.value, fun s hs => ?_⟩
  rcases List.mem_append.1 hs with hs | hs
  · exact hsteps s hs
  · exact hf.exact s hs

/-- No build stops on the way. -/
lemma Gives.run {x : Stepwise α} {a : α} (h : x.Gives a) (build : Build) :
    x.run build = some a := by
  have hany : x.steps.any build.stops = false := by
    rw [List.any_eq_false]
    intro s hs
    rw [build.stops_eq_false (h.exact s hs)]
    exact Bool.false_ne_true
  rw [Stepwise.run, hany, h.value]
  rfl

/-! ### Single steps -/

def sum (x y : UInt64) : Stepwise UInt64 := ⟨x + y, [.sum x y]⟩

def difference (x y : UInt64) : Stepwise UInt64 := ⟨x - y, [.difference x y]⟩

def product (x y : UInt64) : Stepwise UInt64 := ⟨x * y, [.product x y]⟩

def signedProduct (x y : Int64) : Stepwise Int64 := ⟨x * y, [.signedProduct x y]⟩

def quotient (x y : Int64) : Stepwise Int64 := ⟨x / y, [.quotient x y]⟩

def scale (x k : UInt64) : Stepwise UInt64 := ⟨x <<< k, [.scale x k]⟩

def shiftLeft (x k : UInt64) : Stepwise UInt64 := ⟨x <<< k, [.shift k]⟩

def shiftRight (x k : UInt64) : Stepwise UInt64 := ⟨x >>> k, [.shift k]⟩

def signedShiftRight (x : Int64) (k : UInt64) : Stepwise Int64 := ⟨x >>> k.toInt64, [.shift k]⟩

/-- A single step gives its result if it is exact. -/
lemma gives_of_exact {a : α} {s : WordStep} (h : s.Exact) : (⟨a, [s]⟩ : Stepwise α).Gives a :=
  ⟨rfl, List.forall_mem_singleton.2 h⟩

/-! ### Words of a width -/

section Width

variable (w : Width) (b : UInt64)

def mask : Width → Stepwise UInt64
  | .w64 => pure 0xffffffffffffffff
  | w => do difference (← scale 1 w.shift) 1

def signBit : Stepwise UInt64 := do scale 1 (← difference w.shift 1)

def truncate : Stepwise UInt64 := do return b &&& (← mask w)

def isNegative : Stepwise Bool := do return b &&& (← signBit w) != 0

def signExtend : Stepwise Int64 := do
  let k ← difference 64 w.shift
  signedShiftRight (← shiftLeft b k).toInt64 k

lemma gives_mask : (mask w).Gives w.mask := by cases w <;> exact ⟨rfl, by decide⟩

lemma gives_signBit : (signBit w).Gives w.signBit := by cases w <;> exact ⟨rfl, by decide⟩

lemma gives_truncate : (truncate w b).Gives (w.truncate b) := (gives_mask w).bind (gives_pure _)

lemma gives_isNegative : (isNegative w b).Gives (w.isNegative b) :=
  (gives_signBit w).bind (gives_pure _)

lemma gives_signExtend : (signExtend w b).Gives (w.signExtend b) := by
  have hdiff : WordStep.Exact (.difference 64 w.shift) := by cases w <;> decide
  have hshift : WordStep.Exact (.shift (64 - w.shift)) := by cases w <;> decide
  exact (gives_of_exact hdiff).bind ((gives_of_exact hshift).bind (gives_of_exact hshift))

end Width

/-! ### The operations with their steps -/

section Operations

variable (w : Width) (a b : UInt64)

def signedAdd : Stepwise (UInt64 × Bool) := do
  let r ← truncate w (a + b)
  return (r, ← isNegative w ((a ^^^ r) &&& (b ^^^ r)))

def signedSub : Stepwise (UInt64 × Bool) := do
  let r ← truncate w (a - b)
  return (r, ← isNegative w ((a ^^^ b) &&& (a ^^^ r)))

def unsignedAdd : Stepwise (UInt64 × Bool) := do
  let r ← truncate w (a + b)
  return (r, r < a)

def unsignedSub : Stepwise (UInt64 × Bool) := do return (← truncate w (a - b), a < b)

def signedWideOverflow (x y r : Int64) : Stepwise Bool :=
  if x = 0 ∨ y = 0 then pure false
  else if y = -1 then pure (x = Int64.minValue)
  else do return (← quotient r y) != x

def signedMul : Stepwise (UInt64 × Bool) :=
  if w = .w64 then do
    let x := a.toInt64
    let y := b.toInt64
    return ((x * y).toUInt64, ← signedWideOverflow x y (x * y))
  else do
    let p ← signedProduct (← signExtend w a) (← signExtend w b)
    let r ← truncate w p.toUInt64
    return (r, (← signExtend w r) != p)

/-- The test by half words, once the upper halves are there. -/
def halvesOverflow (aHigh bHigh : UInt64) : Stepwise Bool :=
  if aHigh ≠ 0 ∧ bHigh ≠ 0 then pure true
  else do
    let c ← sum (← product aHigh (WordOp.lowHalf b)) (← product (WordOp.lowHalf a) bHigh)
    if c > WordOp.halfMask then pure true
    else do
      let low ← product (WordOp.lowHalf a) (WordOp.lowHalf b)
      return WordOp.carries low (← scale c 32)

def unsignedWideOverflow : Stepwise Bool := do
  halvesOverflow a b (← shiftRight a 32) (← shiftRight b 32)

def unsignedMul : Stepwise (UInt64 × Bool) :=
  if w = .w64 then do return (a * b, ← unsignedWideOverflow a b)
  else do
    let p ← product a b
    return (← truncate w p, p > (← mask w))

/-- An operation on words that lie within the width. -/
def wordOp : ArithOp → Width → UInt64 → UInt64 → Stepwise (UInt64 × Bool)
  | .sadd => signedAdd
  | .ssub => signedSub
  | .smul => signedMul
  | .uadd => unsignedAdd
  | .usub => unsignedSub
  | .umul => unsignedMul

end Operations

/-- An operation on the low bits of any two words. -/
def onWords (op : ArithOp) (w : Width) (a b : UInt64) : Stepwise (UInt64 × Bool) := do
  wordOp op w (← truncate w a) (← truncate w b)

/-! ### The steps of the products -/

open WordOp

/-- What a product of `a` and `b` at a width relies on: the steps that it takes are exact, each
under the conditions under which it is taken. -/
structure ProductsExact (w : Width) (a b : UInt64) : Prop where
  signed : w ≠ .w64 → WordStep.Exact (.signedProduct (w.signExtend a) (w.signExtend b))
  unsigned : w ≠ .w64 → WordStep.Exact (.product a b)
  /-- Dividing the wrapped product back. -/
  quotient : ¬ (a.toInt64 = 0 ∨ b.toInt64 = 0) → b.toInt64 ≠ -1 →
    WordStep.Exact (.quotient (a.toInt64 * b.toInt64) b.toInt64)
  /-- The middle part of the product by half words. -/
  middle : ¬ (highHalf a ≠ 0 ∧ highHalf b ≠ 0) →
    WordStep.Exact (.product (highHalf a) (lowHalf b)) ∧
      WordStep.Exact (.product (lowHalf a) (highHalf b)) ∧
      WordStep.Exact (.sum (highHalf a * lowHalf b) (lowHalf a * highHalf b))
  /-- The lower part, to which the middle part is added. -/
  lower : ¬ cross a b > halfMask →
    WordStep.Exact (.product (lowHalf a) (lowHalf b)) ∧ WordStep.Exact (.scale (cross a b) 32)

section Products

variable {w : Width} {a b : UInt64}

/-- The product of two readings below 64 bits is far from the end of a word. -/
lemma exact_signedProduct (hw : w ≠ .w64) :
    WordStep.Exact (.signedProduct (w.signExtend a) (w.signExtend b)) := by
  have hp := toInt_signExtend_mul hw a b
  rw [← w.toInt_signExtend, ← w.toInt_signExtend] at hp
  have hle := (w.signExtend a * w.signExtend b).le_toInt
  have hlt := (w.signExtend a * w.signExtend b).toInt_lt
  rw [hp] at hle hlt
  exact ⟨hle, hlt⟩

lemma toNat_highHalf_lt (a : UInt64) : (highHalf a).toNat < 2 ^ 32 := by
  rw [toNat_highHalf]
  exact Nat.div_lt_of_lt_mul a.toNat_lt

lemma toNat_lowHalf_lt (a : UInt64) : (lowHalf a).toNat < 2 ^ 32 := by
  rw [toNat_lowHalf]
  exact Nat.mod_lt _ (Nat.two_pow_pos 32)

lemma exact_sum {x y : UInt64} (h : x = 0 ∨ y = 0) : WordStep.Exact (.sum x y) := by
  refine ⟨h, ?_⟩
  have hx := x.toNat_lt
  have hy := y.toNat_lt
  rcases h with rfl | rfl
  · rwa [UInt64.toNat_zero, Nat.zero_add]
  · rwa [UInt64.toNat_zero, Nat.add_zero]

/-- A zero among the upper halves makes a part of the middle zero. -/
lemma middle_eq_zero (h : ¬ (highHalf a ≠ 0 ∧ highHalf b ≠ 0)) :
    highHalf a * lowHalf b = 0 ∨ lowHalf a * highHalf b = 0 := by
  rcases not_and_or.1 h with h0 | h0 <;> rw [not_not] at h0 <;> rw [h0]
  · exact Or.inl UInt64.zero_mul
  · exact Or.inr UInt64.mul_zero

lemma exact_scale {x : UInt64} (h : ¬ x > halfMask) : WordStep.Exact (.scale x 32) := by
  rw [gt_iff_lt, UInt64.lt_iff_toNat_lt] at h
  change ¬ 2 ^ 32 - 1 < x.toNat at h
  refine ⟨by decide, ?_⟩
  change x.toNat * 2 ^ 32 < 2 ^ 64
  omega

theorem productsExact (ha : a.toNat < 2 ^ w.bits) (hb : b.toNat < 2 ^ w.bits) :
    ProductsExact w a b where
  signed := exact_signedProduct
  unsigned hw := by
    have hhalf : 2 ^ w.bits ≤ 2 ^ 32 := by cases w <;> simp_all [Width.bits]
    exact halves_mul_lt (by omega) (by omega)
  quotient h0 h1 := ⟨fun h => h0 (Or.inr h), fun h => h1 h.2⟩
  middle h := ⟨halves_mul_lt (toNat_highHalf_lt a) (toNat_lowHalf_lt b),
    halves_mul_lt (toNat_lowHalf_lt a) (toNat_highHalf_lt b), exact_sum (middle_eq_zero h)⟩
  lower h := ⟨halves_mul_lt (toNat_lowHalf_lt a) (toNat_lowHalf_lt b), exact_scale h⟩

end Products

/-! ### The operations give their results -/

namespace ProductsExact

variable {w : Width} {a b : UInt64} (h : ProductsExact w a b)
include h

lemma gives_signedWideOverflow :
    (signedWideOverflow a.toInt64 b.toInt64 (a.toInt64 * b.toInt64)).Gives
      (WordOp.signedWideOverflow a.toInt64 b.toInt64 (a.toInt64 * b.toInt64)) := by
  unfold signedWideOverflow WordOp.signedWideOverflow
  by_cases h0 : a.toInt64 = 0 ∨ b.toInt64 = 0
  · rw [if_pos h0, if_pos h0]
    exact gives_pure _
  rw [if_neg h0, if_neg h0]
  by_cases h1 : b.toInt64 = -1
  · rw [if_pos h1, if_pos h1]
    exact gives_pure _
  rw [if_neg h1, if_neg h1]
  exact (gives_of_exact (h.quotient h0 h1)).bind (gives_pure _)

lemma gives_signedMul : (signedMul w a b).Gives (WordOp.signedMul w a b) := by
  unfold signedMul WordOp.signedMul
  by_cases hw : w = .w64
  · rw [if_pos hw, if_pos hw]
    exact h.gives_signedWideOverflow.bind (gives_pure _)
  · rw [if_neg hw, if_neg hw]
    refine (gives_signExtend w a).bind ((gives_signExtend w b).bind ?_)
    refine (gives_of_exact (h.signed hw)).bind ?_
    exact (gives_truncate w _).bind ((gives_signExtend w _).bind (gives_pure _))

lemma gives_halvesOverflow :
    (halvesOverflow a b (highHalf a) (highHalf b)).Gives (WordOp.unsignedWideOverflow a b) := by
  unfold halvesOverflow WordOp.unsignedWideOverflow
  by_cases hhigh : highHalf a ≠ 0 ∧ highHalf b ≠ 0
  · rw [if_pos hhigh, if_pos hhigh]
    exact gives_pure _
  rw [if_neg hhigh, if_neg hhigh]
  obtain ⟨hleft, hright, hsum⟩ := h.middle hhigh
  refine (gives_of_exact hleft).bind ((gives_of_exact hright).bind ?_)
  refine (gives_of_exact hsum).bind ?_
  -- the sum is the middle part
  change Gives (if cross a b > halfMask then _ else _) _
  by_cases hcross : cross a b > halfMask
  · rw [if_pos hcross, if_pos hcross]
    exact gives_pure _
  rw [if_neg hcross, if_neg hcross]
  obtain ⟨hlow, hscale⟩ := h.lower hcross
  exact (gives_of_exact hlow).bind ((gives_of_exact hscale).bind (gives_pure _))

lemma gives_unsignedMul : (unsignedMul w a b).Gives (WordOp.unsignedMul w a b) := by
  unfold unsignedMul WordOp.unsignedMul
  by_cases hw : w = .w64
  · rw [if_pos hw, if_pos hw]
    have hshift : WordStep.Exact (.shift 32) := by decide
    have hwide : (unsignedWideOverflow a b).Gives (WordOp.unsignedWideOverflow a b) :=
      (gives_of_exact hshift).bind ((gives_of_exact hshift).bind h.gives_halvesOverflow)
    exact hwide.bind (gives_pure _)
  · rw [if_neg hw, if_neg hw]
    refine (gives_of_exact (h.unsigned hw)).bind ?_
    exact (gives_truncate w _).bind ((gives_mask w).bind (gives_pure _))

end ProductsExact

/-- An operation gives its result by exact steps on operands that lie within the width. -/
lemma gives_wordOp (op : ArithOp) {w : Width} {a b : UInt64} (ha : a.toNat < 2 ^ w.bits)
    (hb : b.toNat < 2 ^ w.bits) : (wordOp op w a b).Gives (op.wordOp w a b) := by
  have hproducts := productsExact ha hb
  cases op with
  | sadd | ssub => exact (gives_truncate w _).bind ((gives_isNegative w _).bind (gives_pure _))
  | smul => exact hproducts.gives_signedMul
  | uadd | usub => exact (gives_truncate w _).bind (gives_pure _)
  | umul => exact hproducts.gives_unsignedMul

lemma gives_onWords (op : ArithOp) (w : Width) (a b : UInt64) :
    (onWords op w a b).Gives (op.onWords w a b) := by
  refine (gives_truncate w a).bind ((gives_truncate w b).bind ?_)
  exact gives_wordOp op (w.toNat_truncate_lt a) (w.toNat_truncate_lt b)

end Stepwise

/-! ### Builds -/

namespace ArithOp

open Stepwise

/-- **Every build computes the same.** On operands that lie within the width, what the products rely
on holds: those below 64 bits fit a word, the division has a result, at most one part of the middle
differs from zero, the products of half words and the sum fit, and the shift that moves the middle
up loses no bits. Each step of any operation is exact. So neither a build that stops at an overflow
nor one that wraps is ever stopped, and on any two words both give the result of the operation. -/
theorem onWords_of_every_build (op : ArithOp) (w : Width) :
    (∀ a b : UInt64, a.toNat < 2 ^ w.bits → b.toNat < 2 ^ w.bits →
        ProductsExact w a b ∧ ∀ s ∈ (Stepwise.wordOp op w a b).steps, s.Exact) ∧
      ∀ (build : Build) (a b : UInt64),
        (Stepwise.onWords op w a b).run build = some (op.onWords w a b) := by
  refine ⟨fun a b ha hb => ⟨productsExact ha hb, ?_⟩, fun build a b => ?_⟩
  · exact (gives_wordOp op ha hb).exact
  · exact (gives_onWords op w a b).run build

/-- The middle part of this product is the largest half word, and the result is the largest word. -/
theorem onWords_of_every_build_largest :
    ((0x100000001 : UInt64).toNat < 2 ^ Width.w64.bits ∧
        (0xffffffff : UInt64).toNat < 2 ^ Width.w64.bits) ∧
      (ProductsExact .w64 0x100000001 0xffffffff ∧
        ∀ s ∈ (Stepwise.wordOp .umul .w64 0x100000001 0xffffffff).steps, s.Exact) ∧
      (Stepwise.onWords .umul .w64 0x100000001 0xffffffff).run .checked =
        some (0xffffffffffffffff, false) := by
  have hfits : (0x100000001 : UInt64).toNat < 2 ^ Width.w64.bits ∧
      (0xffffffff : UInt64).toNat < 2 ^ Width.w64.bits := by decide
  exact ⟨hfits, (onWords_of_every_build .umul .w64).1 _ _ hfits.1 hfits.2,
    (onWords_of_every_build .umul .w64).2 .checked _ _⟩

/-- The steps of the same product. -/
example : (Stepwise.wordOp .umul .w64 0x100000001 0xffffffff).steps =
    [.shift 32, .shift 32, .product 1 0xffffffff, .product 1 0, .sum 0xffffffff 0,
      .product 1 0xffffffff, .scale 0xffffffff 32] := by
  decide

end ArithOp

end FixedInt
