import FixedInt.Diagnostic
import FixedInt.Proofs.Calls

/-!
Calls by name. The names of intrinsics tell them apart, so that a call is that of one intrinsic or
of none. What it comes to is decided by the name, then the number of operands, then the first one
that cannot be read, then the kinds of the values; an operation on values of the right kinds is the
one that a host can also ask for directly.
-/

namespace FixedInt

/-! ### Names of intrinsics -/

section Names

variable {α : Type} {name : α → String} {all : List α}

lemma name_injective_of_nodup (hnames : (all.map name).Nodup) (hall : ∀ a, a ∈ all) :
    Function.Injective name := fun a b h =>
  List.inj_on_of_nodup_map hnames (hall a) (hall b) h

/-- Where names tell things apart, what is found by a name is what has it. -/
lemma find?_name_eq_some_iff (hnames : (all.map name).Nodup) (hall : ∀ a, a ∈ all) {s : String}
    {a : α} : all.find? (name · == s) = some a ↔ name a = s := by
  constructor
  · intro h
    simpa using List.find?_some h
  · rintro rfl
    cases h : all.find? (name · == name a) with
    | none => simpa using List.find?_eq_none.1 h a (hall a)
    | some b =>
      have hb : name b = name a := by simpa using List.find?_some h
      rw [name_injective_of_nodup hnames hall hb]

end Names

namespace Intrinsic

lemma mem_all (i : Intrinsic) : i ∈ all := by
  cases i with
  | arith op w => cases op <;> cases w <;> decide
  | compare p => cases p <;> decide
  | assume => decide

lemma nodup_names : (all.map name).Nodup := by decide +kernel

theorem name_injective : Function.Injective name := name_injective_of_nodup nodup_names mem_all

/-- **A name is looked up to the intrinsic that has it.** -/
theorem lookup_eq_ok {s : String} {i : Intrinsic} : lookup s = .ok i ↔ i.name = s := by
  rw [← find?_name_eq_some_iff nodup_names mem_all]
  change lookup s = .ok i ↔ ofName? s = some i
  unfold lookup
  cases ofName? s <;> simp

lemma lookup_of_no_name {s : String} (h : ∀ i : Intrinsic, i.name ≠ s) :
    lookup s = .error (.unknownIntrinsic s) := by
  have hnone : ofName? s = none := List.find?_eq_none.2 fun i _ => by simpa using h i
  rw [lookup, hnone]

/-- The intrinsic takes values of these kinds. -/
inductive Takes : Intrinsic → List Value → Prop where
  | arith (op : ArithOp) (w : Width) (dest : Address) (left right : Scalar) :
      Takes (.arith op w) [.address dest, .scalar left, .scalar right]
  | compare (p : Predicate) (left right : LaneVector) :
      Takes (.compare p) [.vector left, .vector right]
  | assume (condition : Bool) : Takes .assume [.bool condition]

end Intrinsic

/-! ### Outcomes of a call -/

/-- The outcome with its answer put in another form. -/
def Outcome.map {σ ε α β : Type} (f : α → β) (o : Outcome σ ε α) : Outcome σ ε β :=
  ⟨o.result.map f, o.state, o.log⟩

/-- What a call by name may come to on a memory, one case after another. The operands count only
from the third case on. -/
inductive Called {σ ι : Type} [Memory σ] (e : Evaluator) (name : String) (operands : List ι)
    (read : ι → Except EvalError Value) (m : σ) : Outcome σ EvalError Value → Prop where
  /-- Nothing has the name. -/
  | unknown (h : ∀ i : Intrinsic, i.name ≠ name) :
      Called e name operands read m ⟨.error (.unknownIntrinsic name), m, []⟩
  /-- There are too few operands or too many. -/
  | arity {i : Intrinsic} (hi : i.name = name) (h : operands.length ≠ i.arity) :
      Called e name operands read m ⟨.error (.arity name i.arity operands.length), m, []⟩
  /-- An operand cannot be read, and those before it can. -/
  | unreadable {i : Intrinsic} {before after : List ι} {o : ι} {err : EvalError}
      (hi : i.name = name) (h : operands.length = i.arity)
      (hsplit : operands = before ++ o :: after) (hbefore : ∀ b ∈ before, ∃ v, read b = .ok v)
      (ho : read o = .error err) : Called e name operands read m ⟨.error err, m, []⟩
  | arith {op : ArithOp} {w : Width} {dest : Address} {left right : Scalar}
      (hi : (Intrinsic.arith op w).name = name)
      (h : operands.map read = [.ok (.address dest), .ok (.scalar left), .ok (.scalar right)]) :
      Called e name operands read m (((e.arith op w left right dest).run m).map .address)
  | compare {p : Predicate} {left right : LaneVector} (hi : (Intrinsic.compare p).name = name)
      (h : operands.map read = [.ok (.vector left), .ok (.vector right)]) :
      Called e name operands read m (((e.compare p left right).run m).map .bools)
  | assume {condition : Bool} (hi : Intrinsic.assume.name = name)
      (h : operands.map read = [.ok (.bool condition)]) :
      Called e name operands read m
        ⟨.ok .unit, m,
          if condition = false ∧ e.assumptionPolicy = .warn then [.falseAssumption] else []⟩
  /-- The values are of other kinds. -/
  | mistaken {i : Intrinsic} {values : List Value} (hi : i.name = name)
      (h : operands.length = i.arity) (hread : operands.map read = values.map .ok)
      (hkinds : ¬ i.Takes values) :
      Called e name operands read m
        ⟨.error (.unsupported (.callOperands name (values.map Value.shape))), m, []⟩

namespace Evaluator

variable {σ ι : Type} [Memory σ] (e : Evaluator) {name : String} {operands : List ι}
  {read : ι → Except EvalError Value} (m : σ) {i : Intrinsic} {values : List Value}

lemma run_call_of_lookup (hi : i.name = name) (h : operands.length = i.arity) :
    (e.call name operands read).run m =
      (Action.ofExcept (operands.mapM read) >>= e.apply i name).run m := by
  rw [call, Intrinsic.lookup_eq_ok.2 hi, Action.run_bind_of_silent (Action.run_ofExcept _ _),
    if_pos h]

lemma run_call_of_values (values : List Value) (hi : i.name = name) (h : operands.length = i.arity)
    (hread : operands.map read = values.map .ok) :
    (e.call name operands read).run m = (e.apply i name values).run m := by
  rw [e.run_call_of_lookup m hi h, Except.mapM_eq_ok.2 hread]
  exact Action.run_bind_of_silent (Action.run_ofExcept _ _) _

lemma apply_of_not_takes (h : ¬ i.Takes values) :
    (e.apply i name values : Action σ EvalError Value) =
      Action.fail (.unsupported (.callOperands name (values.map Value.shape))) := by
  unfold apply
  split
  · exact absurd (.arith _ _ _ _ _) h
  · exact absurd (.compare _ _ _) h
  · exact absurd (.assume _) h
  · rfl

/-- Each case is what the call comes to. -/
lemma run_call_of_called {o : Outcome σ EvalError Value} (h : Called e name operands read m o) :
    (e.call name operands read).run m = o := by
  cases h with
  | unknown h =>
    rw [call, Intrinsic.lookup_of_no_name h]
    rfl
  | arity hi h =>
    rw [call, Intrinsic.lookup_eq_ok.2 hi, Action.run_bind_of_silent (Action.run_ofExcept _ _),
      if_neg h]
    rfl
  | unreadable hi h hsplit hbefore ho =>
    rw [e.run_call_of_lookup m hi h, Except.mapM_eq_error.2 ⟨_, _, _, hsplit, hbefore, ho⟩]
    rfl
  | @arith op w dest left right hi h =>
    have hlength : operands.length = 3 := by simpa using congrArg List.length h
    rw [e.run_call_of_values m [_, _, _] hi hlength h]
    exact Action.run_bind_pure _ _ _
  | @compare p left right hi h =>
    have hlength : operands.length = 2 := by simpa using congrArg List.length h
    rw [e.run_call_of_values m [_, _] hi hlength h]
    exact Action.run_bind_pure _ _ _
  | @assume condition hi h =>
    have hlength : operands.length = 1 := by simpa using congrArg List.length h
    rw [e.run_call_of_values m [_] hi hlength h, apply, assume]
    split <;> rfl
  | mistaken hi h hread hkinds =>
    rw [e.run_call_of_values m _ hi h hread, e.apply_of_not_takes hkinds]
    rfl

/-- One of the cases is there. -/
lemma exists_called : ∃ o, Called e name operands read m o := by
  by_cases hname : ∃ i : Intrinsic, i.name = name
  · obtain ⟨i, hi⟩ := hname
    by_cases hlength : operands.length = i.arity
    · cases hread : operands.mapM read with
      | error err =>
        obtain ⟨before, o, after, hsplit, hbefore, ho⟩ := Except.mapM_eq_error.1 hread
        exact ⟨_, .unreadable hi hlength hsplit hbefore ho⟩
      | ok values =>
        have hvalues := Except.mapM_eq_ok.1 hread
        by_cases hkinds : i.Takes values
        · cases hkinds with
          | arith op w dest left right => exact ⟨_, .arith hi hvalues⟩
          | compare p left right => exact ⟨_, .compare hi hvalues⟩
          | assume condition => exact ⟨_, .assume hi hvalues⟩
        · exact ⟨_, .mistaken hi hlength hvalues hkinds⟩
    · exact ⟨_, .arity hi hlength⟩
  · exact ⟨_, .unknown fun i hi => hname ⟨i, hi⟩⟩

/-- **Calls by name.** A call comes to exactly the one of the cases that is there: without an
intrinsic of the name, or with a wrong number of operands, to that failure, whatever the operands
are; then to the failure of the first operand that cannot be read; then to what the operation does
when it is asked for directly with the values; and on values of other kinds to a failure that names
the call and lists the types of all values in order. Only where an operation computes and stores
can the memory change. -/
theorem call_iff (e : Evaluator) (name : String) (operands : List ι)
    (read : ι → Except EvalError Value) (m : σ) :
    (∀ o, (e.call name operands read).run m = o ↔ Called e name operands read m o) ∧
      ((∀ i : Intrinsic, i.name = name → operands.length ≠ i.arity) →
        ∀ read' : ι → Except EvalError Value,
          (e.call name operands read').run m = (e.call name operands read).run m) ∧
      ((∀ op w dest left right, (Intrinsic.arith op w).name = name →
          operands.map read ≠ [.ok (.address dest), .ok (.scalar left), .ok (.scalar right)]) →
        ((e.call name operands read).run m).state = m) ∧
      ∀ shapes : List Shape, (Unsupported.callOperands name shapes).operation = name ∧
        (Unsupported.callOperands name shapes).detail =
          "operands of type (" ++ String.intercalate ", " (shapes.map toString) ++ ")" := by
  obtain ⟨o, ho⟩ : ∃ o, Called e name operands read m o := e.exists_called m
  have hrun := e.run_call_of_called m ho
  refine ⟨fun o' => ⟨?_, e.run_call_of_called m⟩, fun hcount read' => ?_, fun hvalues => ?_,
    fun shapes => ⟨rfl, rfl⟩⟩
  · rintro rfl
    rwa [hrun]
  · by_cases hname : ∃ i : Intrinsic, i.name = name
    · obtain ⟨i, hi⟩ := hname
      rw [e.run_call_of_called m (.arity hi (hcount i hi)),
        e.run_call_of_called m (.arity hi (hcount i hi))]
    · have hno : ∀ i : Intrinsic, i.name ≠ name := fun i hi => hname ⟨i, hi⟩
      rw [e.run_call_of_called m (.unknown hno), e.run_call_of_called m (.unknown hno)]
  · rw [hrun]
    cases ho with
    | arith hi h => exact absurd h (hvalues _ _ _ _ _ hi)
    | compare hi h => exact leavesState_compare _ _ _ m
    | _ => rfl

end Evaluator

end FixedInt
