import FixedInt.Proofs.Arithmetic
import FixedInt.Proofs.Comparing

/-!
Plans that are chosen once and carried out often. A plan works on exactly the operands that have
the shapes it was chosen for, and on these it comes to the same as choosing it anew; any others are
refused, and the failure says which operand does not fit or that the plan is of the other kind.
-/

namespace FixedInt

/-! ### Shapes -/

lemma Scalar.shape_eq_iff {s : Scalar} {w : Width} : s.shape = .scalar w ↔ s.width = w := by
  simp [shape]

lemma LaneVector.shape_eq_iff {v : LaneVector} {w : Width} {n : Nat} :
    v.shape = .vector w n ↔ v.width = w ∧ v.length = n := by
  simp [shape]

/-! ### Choosing a plan -/

/-- The plans of an operation for two operands of one shape. -/
inductive Plan.IsFor : Plan → Operation → Shape → Prop where
  | arith (op : ArithOp) (w : Width) : IsFor (.arith op w) (.arith op) (.scalar w)
  | compare (p : Predicate) (w : Width) {n : Nat} (h : n ≠ 0) :
      IsFor (.compare p w n) (.compare p) (.vector w n)

lemma Operation.plan_eq_ok {operation : Operation} {a b : Shape} {plan : Plan} :
    operation.plan a b = .ok plan ↔ a = b ∧ plan.IsFor operation a := by
  constructor
  · intro h
    unfold Operation.plan at h
    split at h
    · split_ifs at h with hw
      cases h
      exact ⟨congrArg Shape.scalar hw, .arith _ _⟩
    · split_ifs at h with hshape hn
      cases h
      rw [not_or, not_ne_iff, not_ne_iff] at hshape
      obtain ⟨rfl, rfl⟩ := hshape
      exact ⟨rfl, .compare _ _ hn⟩
    · cases h
  · rintro ⟨rfl, h⟩
    cases h with
    | arith op w => simp [Operation.plan]
    | compare p w hn => simp [Operation.plan, hn]

namespace Plan

/-! ### Carrying it out -/

/-- What a plan does that was chosen for an operation on operands of two shapes. -/
structure Serves (plan : Plan) (operation : Operation) (a b : Shape) : Prop where
  /-- Scalars can be computed with if they have the shapes. -/
  runArith_iff (left right : Scalar) :
    (∃ r, plan.runArith left right = .ok r) ↔ left.shape = a ∧ right.shape = b
  /-- Vectors can be compared if they have the shapes. -/
  runCompare_iff (left right : LaneVector) :
    (∃ bs, plan.runCompare left right = .ok bs) ↔ left.shape = a ∧ right.shape = b
  runArith_eq {op : ArithOp} (h : operation = .arith op) {left right : Scalar}
    (hl : left.shape = a) (hr : right.shape = b) :
    plan.runArith left right = op.compute left right ∧
      ∀ {σ : Type} (s : σ), (plan.traceArith left right).run s = (op.traceCompute left right).run s
  runCompare_eq {p : Predicate} (h : operation = .compare p) {left right : LaneVector}
    (hl : left.shape = a) (hr : right.shape = b) :
    plan.runCompare left right = p.compare left right ∧
      ∀ {σ : Type} (s : σ),
        (plan.traceCompare left right).run s = (p.traceCompare left right).run s
  scalars_refused {op : ArithOp} {w : Width} (h : operation = .arith op) (ha : a = .scalar w)
    {left right : Scalar} (hne : ¬ (left.shape = a ∧ right.shape = b)) :
    plan.runArith left right = .error (.unsupported (.scalarWidths op w left.width right.width))
  /-- A comparison looks at the left operand first. -/
  left_refused {p : Predicate} {w : Width} {n : Nat} (h : operation = .compare p)
    (ha : a = .vector w n) {left : LaneVector} (hl : left.shape ≠ a) (right : LaneVector) :
    plan.runCompare left right = .error (.unsupported (.vectorShape p w n left.shape))
  right_refused {p : Predicate} (h : operation = .compare p) {left right : LaneVector}
    (hl : left.shape = a) (hr : right.shape ≠ b) :
    plan.runCompare left right =
      .error (.shapeMismatch left.length left.width right.length right.width)
  not_comparison {op : ArithOp} (h : operation = .arith op) (left right : LaneVector) :
    plan.runCompare left right = .error (.unsupported (.notComparison op))
  not_arithmetic {p : Predicate} (h : operation = .compare p) (left right : Scalar) :
    plan.runArith left right = .error (.unsupported (.notArithmetic p))

/-! ### Arithmetic -/

lemma serves_arith (op : ArithOp) (w : Width) :
    (arith op w).Serves (.arith op) (.scalar w) (.scalar w) where
  runArith_iff left right := by
    rw [Scalar.shape_eq_iff, Scalar.shape_eq_iff, runArith]
    split_ifs with h <;> simp [h]
  runCompare_iff left right := by
    simp [runCompare, LaneVector.shape]
  runArith_eq := by
    intro op' h left right hl hr
    cases h
    have hplan : (Operation.arith op).plan left.shape right.shape = .ok (arith op w) :=
      Operation.plan_eq_ok.2 ⟨hl.trans hr.symm, hl ▸ .arith op w⟩
    refine ⟨?_, fun s => ?_⟩
    · rw [ArithOp.compute, hplan]
      rfl
    · rw [ArithOp.traceCompute, hplan]
      rfl
  runCompare_eq h := by cases h
  scalars_refused := by
    intro op' w' h ha left right hne
    cases h
    cases ha
    rw [Scalar.shape_eq_iff, Scalar.shape_eq_iff] at hne
    rw [runArith, if_neg hne]
  left_refused h := by cases h
  right_refused h := by cases h
  not_comparison h := by
    cases h
    exact fun _ _ => rfl
  not_arithmetic h := by cases h

/-! ### Comparisons -/

section Compare

variable (p : Predicate) {w : Width} {n : Nat} {left right : LaneVector}

lemma runCompare_of_left_ne (hl : left.shape ≠ .vector w n) (right : LaneVector) :
    (compare p w n).runCompare left right =
      .error (.unsupported (.vectorShape p w n left.shape)) := by
  rw [ne_eq, LaneVector.shape_eq_iff] at hl
  rw [runCompare, if_neg hl]

lemma runCompare_of_left_eq (hl : left.shape = .vector w n) (right : LaneVector) :
    (compare p w n).runCompare left right = left.decideLanes (p.holds w) right := by
  rw [LaneVector.shape_eq_iff] at hl
  rw [runCompare, if_pos hl]

/-- Lanes without a partner are not left out: the vectors are refused. -/
lemma runCompare_of_right_ne (hl : left.shape = .vector w n) (hr : right.shape ≠ .vector w n) :
    (compare p w n).runCompare left right =
      .error (.shapeMismatch left.length left.width right.length right.width) := by
  rw [runCompare_of_left_eq p hl]
  rw [LaneVector.shape_eq_iff] at hl
  rw [ne_eq, LaneVector.shape_eq_iff, ← hl.1, ← hl.2] at hr
  exact LaneVector.decideLanes_of_not_sameShape (fun h => hr ⟨h.1.symm, h.2.symm⟩) _

lemma exists_runCompare (hl : left.shape = .vector w n) (hr : right.shape = .vector w n) :
    ∃ bs, (compare p w n).runCompare left right = .ok bs := by
  rw [runCompare_of_left_eq p hl]
  rw [LaneVector.shape_eq_iff] at hl hr
  have hshape : left.SameShape right := ⟨hl.1.trans hr.1.symm, hl.2.trans hr.2.symm⟩
  exact ⟨_, LaneVector.decideLanes_of_sameShape hshape _⟩

lemma serves_compare (hn : n ≠ 0) :
    (compare p w n).Serves (.compare p) (.vector w n) (.vector w n) where
  runArith_iff left right := by
    simp [runArith, Scalar.shape]
  runCompare_iff left right := by
    by_cases hl : left.shape = .vector w n
    · by_cases hr : right.shape = .vector w n
      · exact iff_of_true (exists_runCompare p hl hr) ⟨hl, hr⟩
      · simp [runCompare_of_right_ne p hl hr, hr]
    · simp [runCompare_of_left_ne p hl, hl]
  runArith_eq h := by cases h
  runCompare_eq := by
    intro p' h left right hl hr
    cases h
    have hplan : (Operation.compare p).plan left.shape right.shape = .ok (compare p w n) :=
      Operation.plan_eq_ok.2 ⟨hl.trans hr.symm, hl ▸ .compare p w hn⟩
    refine ⟨?_, fun s => ?_⟩
    · rw [Predicate.compare, hplan]
      rfl
    · rw [Predicate.traceCompare, hplan]
      rfl
  scalars_refused h := by cases h
  left_refused := by
    intro p' w' n' h ha left hl right
    cases h
    cases ha
    exact runCompare_of_left_ne p hl right
  right_refused := by
    intro p' h left right hl hr
    cases h
    exact runCompare_of_right_ne p hl hr
  not_comparison h := by cases h
  not_arithmetic h := by
    cases h
    exact fun _ _ => rfl

end Compare

end Plan

/-! ### Any operation -/

/-- **A plan that was chosen once** serves for all operands to come. There is one for arithmetic on
two scalars of one width and for a comparison of two vectors of one width and one length above
zero. It works on exactly the operands of these shapes, where it gives what the operation gives in
one step, records and all, and it refuses all others with the failure that fits. -/
theorem Operation.plan_serves (operation : Operation) (a b : Shape) :
    ((∃ plan, operation.plan a b = .ok plan) ↔
      (∃ op w, operation = .arith op ∧ a = .scalar w ∧ b = .scalar w) ∨
        ∃ p w n, operation = .compare p ∧ a = .vector w n ∧ b = .vector w n ∧ n ≠ 0) ∧
    ∀ plan, operation.plan a b = .ok plan → plan.Serves operation a b := by
  refine ⟨⟨?_, ?_⟩, fun plan h => ?_⟩
  · rintro ⟨plan, h⟩
    obtain ⟨rfl, hfor⟩ := Operation.plan_eq_ok.1 h
    cases hfor with
    | arith op w => exact Or.inl ⟨op, w, rfl, rfl, rfl⟩
    | compare p w hn => exact Or.inr ⟨p, w, _, rfl, rfl, rfl, hn⟩
  · rintro (⟨op, w, rfl, rfl, rfl⟩ | ⟨p, w, n, rfl, rfl, rfl, hn⟩)
    · exact ⟨_, Operation.plan_eq_ok.2 ⟨rfl, .arith op w⟩⟩
    · exact ⟨_, Operation.plan_eq_ok.2 ⟨rfl, .compare p w hn⟩⟩
  · obtain ⟨rfl, hfor⟩ := Operation.plan_eq_ok.1 h
    cases hfor with
    | arith op w => exact Plan.serves_arith op w
    | compare p w hn => exact Plan.serves_compare p hn

/-- A comparison that was planned for two lanes of eight bits, with three lanes on one side. -/
theorem Operation.plan_serves_twoLanes :
    (Operation.compare .ult).plan (.vector .w8 2) (.vector .w8 2) = .ok (.compare .ult .w8 2) ∧
      (Plan.compare .ult .w8 2).runCompare (.ofBits .w8 [1, 2, 3]) (.ofBits .w8 [1, 2]) =
        .error (.unsupported (.vectorShape .ult .w8 2 (.vector .w8 3))) ∧
      (Plan.compare .ult .w8 2).runCompare (.ofBits .w8 [1, 2]) (.ofBits .w8 [1, 2, 3]) =
        .error (.shapeMismatch 2 .w8 3 .w8) ∧
      ∃ bs, (Plan.compare .ult .w8 2).runCompare (.ofBits .w8 [1, 2]) (.ofBits .w8 [2, 1]) =
        .ok bs := by
  obtain ⟨-, hserves⟩ := Operation.plan_serves (.compare .ult) (.vector .w8 2) (.vector .w8 2)
  have h := hserves (.compare .ult .w8 2) rfl
  exact ⟨rfl, h.left_refused rfl rfl (by decide) _, h.right_refused rfl rfl (by decide),
    (h.runCompare_iff _ _).2 ⟨rfl, rfl⟩⟩

end FixedInt
