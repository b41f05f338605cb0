import FixedInt.Plan
import FixedInt.Proofs.Action
import FixedInt.Proofs.Word
import Mathlib.Tactic.SplitIfs

/-!
Comparisons of vectors against relations of integers. Two vectors of one shape are compared lane by
lane, and entry `i` tells whether the integers that the predicate reads in lanes `i` stand in its
relation. Vectors of different shapes and empty ones are refused.
-/

namespace FixedInt

/-! ### Relations of integers -/

namespace Predicate

/-- Whether lanes are read as signed. -/
def isSigned : Predicate → Bool
  | slt | sle | sgt | sge => true
  | eq | ne | ult | ule | ugt | uge => false

/-- The integer that a predicate reads in the low bits of a lane. -/
def reading (p : Predicate) (w : Width) (b : UInt64) : Int :=
  if p.isSigned then w.signedOf b.toNat else (b.toNat % 2 ^ w.bits : Nat)

/-- The relation that a predicate stands for. -/
def Relates (p : Predicate) (x y : Int) : Prop :=
  match p with
  | eq => x = y
  | ne => x ≠ y
  | slt | ult => x < y
  | sle | ule => x ≤ y
  | sgt | ugt => y < x
  | sge | uge => y ≤ x

/-- The integers among which a predicate reads the lanes of a width. -/
def InRange (p : Predicate) (w : Width) (n : Int) : Prop :=
  if p.isSigned then -2 ^ (w.bits - 1) ≤ n ∧ n < 2 ^ (w.bits - 1) else 0 ≤ n ∧ n < 2 ^ w.bits

/-- What is read lies in the range and has the low bits of the lane. -/
lemma reading_spec (p : Predicate) (w : Width) (b : UInt64) :
    p.InRange w (p.reading w b) ∧ p.reading w b % 2 ^ w.bits = (b.toNat : Int) % 2 ^ w.bits := by
  unfold InRange reading
  split_ifs with h
  · exact ⟨w.signedOf_range b.toNat, w.signedOf_emod b.toNat⟩
  · have hlt := Nat.mod_lt b.toNat (Nat.two_pow_pos w.bits)
    refine ⟨⟨Int.natCast_nonneg _, by exact_mod_cast hlt⟩, ?_⟩
    push_cast
    exact Int.emod_emod_of_dvd _ (dvd_refl _)

/-- **A predicate decides its relation** on lanes that lie within the width. -/
theorem holds_iff (p : Predicate) {w : Width} {a b : UInt64} (ha : w.truncate a = a)
    (hb : w.truncate b = b) :
    p.holds w a b = true ↔ p.Relates (p.reading w a) (p.reading w b) := by
  have ha' : a.toNat % 2 ^ w.bits = a.toNat := by rw [← Width.toNat_truncate, ha]
  have hb' : b.toNat % 2 ^ w.bits = b.toNat := by rw [← Width.toNat_truncate, hb]
  have heq : (a.toNat : Int) = b.toNat ↔ a = b := by rw [Int.natCast_inj, UInt64.toNat_inj]
  cases p with
  | eq | ne =>
    simp only [holds, Relates, reading, isSigned, ha', hb', heq, beq_iff_eq, bne_iff_ne, ne_eq,
      Bool.false_eq_true, if_false]
  | slt | sle | sgt | sge =>
    simp [holds, Relates, reading, isSigned, Int64.lt_iff_toInt_lt, Int64.le_iff_toInt_le,
      Width.toInt_signExtend]
  | ult | ule | ugt | uge =>
    simp [holds, Relates, reading, isSigned, ha', hb', UInt64.lt_iff_toNat_lt,
      UInt64.le_iff_toNat_le]

end Predicate

/-! ### Walking over two vectors -/

namespace LaneCursor

/-- The lanes still to come. -/
def rest (c : LaneCursor) : List UInt64 := c.vector.lanes.drop c.index

lemma rest_of_next_some {c c' : LaneCursor} {b : UInt64} (h : c.next = (some b, c')) :
    c.rest = b :: c'.rest := by
  unfold next at h
  split at h
  · next hb =>
    cases h
    obtain ⟨hlt, rfl⟩ := List.getElem?_eq_some_iff.1 hb
    exact List.drop_eq_getElem_cons hlt
  · cases h

lemma rest_of_next_none {c c' : LaneCursor} (h : c.next = (none, c')) : c.rest = [] := by
  unfold next at h
  split at h
  · cases h
  · next hb => exact List.drop_eq_nil_of_le (List.getElem?_eq_none_iff.1 hb)

/-- Two cursors give their lanes out in pairs, and none of them is left out or given twice. -/
theorem zipWith_eq {α : Type} (f : UInt64 → UInt64 → α) (c d : LaneCursor) :
    c.zipWith f d = List.zipWith f c.rest d.rest := by
  fun_induction zipWith f c d with
  | case1 c d a c' hc b d' hd ih =>
    rw [ih, rest_of_next_some hc, rest_of_next_some hd, List.zipWith_cons_cons]
  | case2 c d a c' hc d' hd => rw [rest_of_next_none hd, List.zipWith_nil_right]
  | case3 c d c' hc => rw [rest_of_next_none hc, List.zipWith_nil_left]

end LaneCursor

/-! ### Deciding pairs of lanes -/

namespace LaneVector

/-- The vectors have the same lane width and the same number of lanes. -/
def SameShape (left right : LaneVector) : Prop :=
  left.width = right.width ∧ left.length = right.length

/-- The entries are the decisions `decide` on the lanes of two vectors, in order. -/
def Decides (decide : UInt64 → UInt64 → Prop) (left right : LaneVector) (bs : List Bool) : Prop :=
  bs.length = left.length ∧ ∀ i a b, left.lane? i = some a → right.lane? i = some b →
    ∃ t, bs[i]? = some t ∧ (t = true ↔ decide a b)

variable {left right : LaneVector}

lemma decides_zipWith (h : left.length = right.length) (f : UInt64 → UInt64 → Bool) :
    Decides (fun a b => f a b = true) left right (List.zipWith f left.lanes right.lanes) := by
  refine ⟨?_, fun i a b ha hb => ⟨f a b, ?_, Iff.rfl⟩⟩
  · unfold length at h
    rw [List.length_zipWith, h, Nat.min_self, ← h, length]
  · unfold lane? at ha hb
    rw [List.getElem?_zipWith, ha, hb]

lemma decideLanes_of_sameShape (h : left.SameShape right) (f : UInt64 → UInt64 → Bool) :
    left.decideLanes f right = .ok (List.zipWith f left.lanes right.lanes) := by
  rw [decideLanes, requireSameShape, if_pos ⟨h.2, h.1⟩]
  rfl

lemma decideLanes_of_not_sameShape (h : ¬ left.SameShape right) (f : UInt64 → UInt64 → Bool) :
    left.decideLanes f right =
      .error (.shapeMismatch left.length left.width right.length right.width) := by
  have hne : ¬ (left.length = right.length ∧ left.width = right.width) := fun h' => h h'.symm
  rw [decideLanes, requireSameShape, if_neg hne]
  rfl

/-- Any decision can be made on vectors of one shape, and on no others. -/
lemma decideLanes_iff (left right : LaneVector) (f : UInt64 → UInt64 → Bool) :
    ((∃ bs, left.decideLanes f right = .ok bs) ↔ left.SameShape right) ∧
    (∀ bs, left.decideLanes f right = .ok bs →
      Decides (fun a b => f a b = true) left right bs ∧ bs = left.cursor.zipWith f right.cursor) ∧
    ∀ err, left.decideLanes f right = .error err ↔ ¬ left.SameShape right ∧
      err = .shapeMismatch left.length left.width right.length right.width := by
  by_cases h : left.SameShape right
  · rw [decideLanes_of_sameShape h]
    refine ⟨iff_of_true ⟨_, rfl⟩ h, fun bs hbs => ?_, fun err => ?_⟩
    · cases hbs
      exact ⟨decides_zipWith h.2 f, (LaneCursor.zipWith_eq f left.cursor right.cursor).symm⟩
    · simp [h]
  · rw [decideLanes_of_not_sameShape h]
    refine ⟨by simp [h], fun bs hbs => ?_, fun err => ?_⟩
    · cases hbs
    · simp [h, eq_comm]

end LaneVector

/-! ### Comparisons -/

namespace Predicate

open LaneVector

variable {left right : LaneVector} (p : Predicate)

lemma compare_of_sameShape (h : left.SameShape right) (hl : 0 < left.length) :
    p.compare left right =
      .ok (List.zipWith (p.holds left.width) left.lanes right.lanes) := by
  have hplan : (Operation.compare p).plan left.shape right.shape =
      .ok (.compare p left.width left.length) := by
    simp only [Operation.plan, LaneVector.shape]
    rw [if_neg (by simp [h.1, h.2]), if_neg (by omega)]
  rw [compare, hplan]
  change (Plan.compare p left.width left.length).runCompare left right = _
  rw [Plan.runCompare, if_pos ⟨rfl, rfl⟩, decideLanes_of_sameShape h]

lemma compare_of_not_sameShape (h : ¬ left.SameShape right) :
    p.compare left right =
      .error (.shapeMismatch left.length left.width right.length right.width) := by
  have hne : left.width ≠ right.width ∨ left.length ≠ right.length := by
    rw [SameShape, not_and_or] at h
    exact h
  have hplan : (Operation.compare p).plan left.shape right.shape =
      .error (.shapeMismatch left.length left.width right.length right.width) := by
    simp only [Operation.plan, LaneVector.shape]
    rw [if_pos hne]
  rw [compare, hplan]
  rfl

lemma compare_of_empty (h : left.SameShape right) (hl : left.length = 0) :
    p.compare left right = .error (.unsupported (.emptyVectors p)) := by
  have hplan : (Operation.compare p).plan left.shape right.shape =
      .error (.unsupported (.emptyVectors p)) := by
    simp only [Operation.plan, LaneVector.shape]
    rw [if_neg (by simp [h.1, h.2]), if_pos hl]
  rw [compare, hplan]
  rfl

/-- The entries of two vectors of one shape are decided by the predicate. -/
lemma decides_holds (h : left.SameShape right) :
    Decides (fun a b => p.Relates (p.reading left.width a) (p.reading left.width b)) left right
      (List.zipWith (p.holds left.width) left.lanes right.lanes) := by
  obtain ⟨hlength, hentries⟩ := decides_zipWith h.2 (p.holds left.width)
  refine ⟨hlength, fun i a b ha hb => ?_⟩
  obtain ⟨t, ht, hiff⟩ := hentries i a b ha hb
  have hfa := left.fits a (List.mem_of_getElem? ha)
  have hfb := right.fits b (List.mem_of_getElem? hb)
  rw [← h.1] at hfb
  exact ⟨t, ht, hiff.trans (p.holds_iff hfa hfb)⟩

lemma of_compare_eq_ok {bs : List Bool} (hbs : p.compare left right = .ok bs) :
    (left.SameShape right ∧ 0 < left.length) ∧
      Decides (fun a b => p.Relates (p.reading left.width a) (p.reading left.width b))
        left right bs := by
  by_cases h : left.SameShape right
  · by_cases hl : 0 < left.length
    · rw [p.compare_of_sameShape h hl] at hbs
      cases hbs
      exact ⟨⟨h, hl⟩, p.decides_holds h⟩
    · rw [p.compare_of_empty h (by omega)] at hbs
      cases hbs
  · rw [p.compare_of_not_sameShape h] at hbs
    cases hbs

/-- A comparison is planned only for the shape of its operands. -/
lemma plan_eq_ok {plan : Plan}
    (h : (Operation.compare p).plan left.shape right.shape = .ok plan) :
    plan = .compare p left.width left.length := by
  simp only [Operation.plan, LaneVector.shape] at h
  split_ifs at h
  cases h
  rfl

/-- A comparison that is recorded answers like one that is not, and has no other effect. -/
lemma run_traceCompare {σ : Type} (left right : LaneVector) (s : σ) :
    (p.traceCompare left right : Action σ EvalError (List Bool)).run s =
      ⟨p.compare left right, s,
        match p.compare left right with
        | .ok bs => [.comparison p left.width left.length bs]
        | .error _ => []⟩ := by
  cases hplan : (Operation.compare p).plan left.shape right.shape with
  | error err =>
    have hc : p.compare left right = .error err := by
      rw [Predicate.compare, hplan]
      rfl
    rw [hc, Predicate.traceCompare, hplan]
    rfl
  | ok plan =>
    obtain rfl := p.plan_eq_ok hplan
    have hc : p.compare left right =
        (Plan.compare p left.width left.length).runCompare left right := by
      rw [Predicate.compare, hplan]
      rfl
    rw [hc, Predicate.traceCompare, hplan, Action.run_bind_of_silent (Action.run_ofExcept _ _),
      Plan.traceCompare]
    cases (Plan.compare p left.width left.length).runCompare left right <;> rfl

/-- **Comparisons lane by lane.** Two vectors of one lane width and one length above zero can be
compared, and entry `i` tells whether the integers in lanes `i` stand in the relation of the
predicate. If width or length differ, the failure has both shapes, and it is a different one for
vectors of one width without lanes. A comparison that is recorded answers the same. With any other
decision on pairs of lanes, vectors of one shape can be compared, empty ones too, and all others are
refused in the same way; the lanes are those that two cursors give out. -/
theorem compare_iff (p : Predicate) (left right : LaneVector) :
    ((∃ bs, p.compare left right = .ok bs) ↔ left.SameShape right ∧ 0 < left.length) ∧
    (∀ bs, p.compare left right = .ok bs →
      Decides (fun a b => p.Relates (p.reading left.width a) (p.reading left.width b))
        left right bs) ∧
    (∀ b : UInt64, p.InRange left.width (p.reading left.width b) ∧
      p.reading left.width b % 2 ^ left.width.bits = (b.toNat : Int) % 2 ^ left.width.bits) ∧
    (∀ err, p.compare left right = .error err ↔
      ¬ left.SameShape right ∧
          err = .shapeMismatch left.length left.width right.length right.width ∨
        left.SameShape right ∧ left.length = 0 ∧ err = .unsupported (.emptyVectors p)) ∧
    (∀ {σ : Type} (s : σ), ((p.traceCompare left right).run s).result = p.compare left right) ∧
    ∀ decide : UInt64 → UInt64 → Bool,
      ((∃ bs, left.decideLanes decide right = .ok bs) ↔ left.SameShape right) ∧
      (∀ bs, left.decideLanes decide right = .ok bs →
        Decides (fun a b => decide a b = true) left right bs ∧
          bs = left.cursor.zipWith decide right.cursor) ∧
      ∀ err, left.decideLanes decide right = .error err ↔ ¬ left.SameShape right ∧
        err = .shapeMismatch left.length left.width right.length right.width := by
  refine ⟨?_, ?_, p.reading_spec left.width, ?_, fun s => ?_,
    decideLanes_iff left right⟩
  · constructor
    · rintro ⟨bs, hbs⟩
      exact (p.of_compare_eq_ok hbs).1
    · rintro ⟨h, hl⟩
      exact ⟨_, p.compare_of_sameShape h hl⟩
  · intro bs hbs
    exact (p.of_compare_eq_ok hbs).2
  · intro err
    constructor
    · intro herr
      by_cases h : left.SameShape right
      · have hl : ¬ 0 < left.length := by
          intro hl
          rw [p.compare_of_sameShape h hl] at herr
          cases herr
        rw [p.compare_of_empty h (by omega)] at herr
        cases herr
        exact Or.inr ⟨h, by omega, rfl⟩
      · rw [p.compare_of_not_sameShape h] at herr
        cases herr
        exact Or.inl ⟨h, rfl⟩
    · rintro (⟨h, rfl⟩ | ⟨h, hl, rfl⟩)
      · exact p.compare_of_not_sameShape h
      · exact p.compare_of_empty h hl
  · rw [p.run_traceCompare]

/-- The bits of the first lane on the left are those of `-1` and of `255`. -/
example : Predicate.slt.compare (.ofBits .w8 [255, 1]) (.ofBits .w8 [0, 2]) = .ok [true, true] ∧
    Predicate.ult.compare (.ofBits .w8 [255, 1]) (.ofBits .w8 [0, 2]) = .ok [false, true] := by
  decide

end Predicate

end FixedInt
