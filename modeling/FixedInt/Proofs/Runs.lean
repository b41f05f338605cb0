import FixedInt.Proofs.Storing

/-!
Runs of steps in which some fail. A step that fails has changed nothing, since every store is
checked as a whole before its first byte; so the steps that fail can be left out of a run, and the
others answer as before.
-/

namespace FixedInt

/-! ### Steps that fail -/

lemma Plan.leavesState_traceArith {σ : Type} (plan : Plan) (left right : Scalar) :
    (plan.traceArith left right : Action σ EvalError CheckedResult).LeavesState := by
  cases plan with
  | arith op w => exact Action.leavesState_traced _ _
  | compare p w n => exact Action.leavesState_ofExcept _

lemma Plan.leavesState_traceCompare {σ : Type} (plan : Plan) (left right : LaneVector) :
    (plan.traceCompare left right : Action σ EvalError (List Bool)).LeavesState := by
  cases plan with
  | arith op w => exact Action.leavesState_ofExcept _
  | compare p w n => exact Action.leavesState_traced _ _

namespace ResultSlots

/-- A store is made as a whole or not at all if its extent covers value and flag. -/
theorem failsCleanly_store {slots : ResultSlots} (he : slots.Enclosed) (dest : Address)
    (r : CheckedResult) :
    (slots.store dest r : Action ByteMemory EvalError Unit).FailsCleanly := by
  intro m err herr
  by_cases hr : r.width = slots.width
  · by_cases h : m.Fits dest slots.extent
    · rw [run_store_of_fits he hr h] at herr
      cases herr
    · rw [run_store_of_not_fits hr h]
  · rw [store, if_neg hr]
    rfl

lemma leavesState_load (slots : ResultSlots) (dest : Address) :
    (slots.load dest : Action ByteMemory EvalError CheckedResult).LeavesState := by
  have hread : ∀ off w, (Action.memory (Memory.read dest off w) :
      Action ByteMemory EvalError UInt64).LeavesState := fun off w =>
    (Action.leavesState_access (ByteMemory.snd_read dest off w)).mapError _
  exact (hread _ _).bind fun bits => (hread _ _).bind fun flag => Action.leavesState_pure _

end ResultSlots

namespace Evaluator

variable {e : Evaluator}

lemma leavesState_compare (p : Predicate) (left right : LaneVector) {σ : Type} :
    (e.compare p left right : Action σ EvalError (List Bool)).LeavesState :=
  (Action.leavesState_ofExcept _).bind fun plan => plan.leavesState_traceCompare left right

lemma leavesState_assume (condition : Bool) {σ : Type} :
    (e.assume condition : Action σ EvalError Unit).LeavesState := by
  unfold assume
  split
  · exact Action.leavesState_emit _
  · exact Action.leavesState_pure _

variable (hs : ∀ w, (e.slots.get w).Sound w)

include hs

theorem failsCleanly_arith (op : ArithOp) (w : Width) (left right : Scalar) (dest : Address) :
    (e.arith op w left right dest : Action ByteMemory EvalError Address).FailsCleanly := by
  refine (Action.leavesState_ofExcept _).bind_failsCleanly fun plan => ?_
  split
  · refine (plan.leavesState_traceArith left right).bind_failsCleanly fun r => ?_
    exact (ResultSlots.failsCleanly_store (hs w).enclosed dest r).bind_pure fun _ => dest
  · exact (Action.leavesState_ofExcept _).failsCleanly

lemma failsCleanly_apply (i : Intrinsic) (name : String) (values : List Value) :
    (e.apply i name values : Action ByteMemory EvalError Value).FailsCleanly := by
  unfold apply
  split
  · exact (failsCleanly_arith hs _ _ _ _ _).bind_pure _
  · exact (leavesState_compare _ _ _).failsCleanly.bind_pure _
  · exact (leavesState_assume _).failsCleanly.bind_pure _
  · exact (Action.leavesState_ofExcept _).failsCleanly

theorem failsCleanly_call {ι : Type} (name : String) (operands : List ι)
    (read : ι → Except EvalError Value) :
    (e.call name operands read : Action ByteMemory EvalError Value).FailsCleanly := by
  refine (Action.leavesState_ofExcept _).bind_failsCleanly fun i => ?_
  split
  · exact (Action.leavesState_ofExcept _).bind_failsCleanly fun values =>
      failsCleanly_apply hs i name values
  · exact (Action.leavesState_ofExcept _).failsCleanly

end Evaluator

namespace Step

/-- A step in which the host itself stores a result does so through sound slots. Of all other steps
nothing is asked. -/
def Sound : Step → Prop
  | store spec _ _ => ∀ slots, spec.slots = .ok slots → slots.Sound slots.width
  | _ => True

section Outcome

variable {σ α : Type} (answer : α → Answer) (x : Action σ EvalError α) (m : σ)

/-- What an evaluation comes to as a step. -/
lemma run_ofEval :
    (ofEval answer x).run m =
      ⟨((x.run m).result.mapError .eval).map answer, (x.run m).state, (x.run m).log⟩ :=
  Action.run_bind_pure _ _ _

variable {x m}

lemma exists_ok_of_ofEval (h : ∃ a, ((ofEval answer x).run m).result = .ok a) :
    ∃ a, (x.run m).result = .ok a := by
  obtain ⟨a, ha⟩ := h
  rw [run_ofEval] at ha
  obtain ⟨b, hb⟩ := Except.exists_of_map_eq_ok ha
  exact ⟨b, Except.mapError_eq_ok.1 hb⟩

end Outcome

lemma failsCleanly_ofEval {σ α : Type} {x : Action σ EvalError α} (hx : x.FailsCleanly)
    (answer : α → Answer) : (ofEval answer x).FailsCleanly :=
  (hx.mapError _).bind_pure answer

lemma failsCleanly_ofAccess {σ α : Type} {x : Access σ α}
    (hx : ∀ m err, (x m).1 = .error err → (x m).2 = m) (answer : α → Answer) :
    (ofAccess answer x).FailsCleanly :=
  ((Action.failsCleanly_access hx).mapError _).bind_pure answer

/-- **A step that fails leaves every byte as it was.** -/
theorem failsCleanly_run {e : Evaluator} (hs : ∀ w, (e.slots.get w).Sound w) {s : Step}
    (h : s.Sound) : (s.run e : Action ByteMemory Fault Answer).FailsCleanly := by
  cases s with
  | allocate size =>
    refine failsCleanly_ofAccess (fun m err herr => ?_) _
    cases herr
  | bytes region => exact failsCleanly_ofAccess (fun _ _ _ => rfl) _
  | offset address n => exact (Action.leavesState_pure _).failsCleanly
  | slots w => exact (Action.leavesState_pure _).failsCleanly
  | write address off w b =>
    exact failsCleanly_ofAccess (fun _ _ => ByteMemory.snd_write_of_error) _
  | read address off w =>
    exact failsCleanly_ofAccess (fun m _ _ => ByteMemory.snd_read address off w m) _
  | check address n => exact failsCleanly_ofAccess (fun m _ _ => ByteMemory.snd_check address n m) _
  | arith op w left right dest =>
    exact failsCleanly_ofEval (Evaluator.failsCleanly_arith hs op w left right dest) _
  | compare p left right =>
    exact failsCleanly_ofEval (Evaluator.leavesState_compare p left right).failsCleanly _
  | call name operands find =>
    exact failsCleanly_ofEval (Evaluator.failsCleanly_call hs name operands find) _
  | store spec dest r =>
    refine failsCleanly_ofEval ?_ _
    cases hspec : spec.slots with
    | ok slots => exact ResultSlots.failsCleanly_store (h slots hspec).enclosed dest r
    | error err => exact (Action.leavesState_ofExcept (.error err)).failsCleanly
  | load spec dest =>
    refine failsCleanly_ofEval (Action.LeavesState.failsCleanly ?_) _
    exact (Action.leavesState_ofExcept _).bind fun slots => slots.leavesState_load dest

/-! ### Runs -/

section Run

variable {σ : Type} [Arena σ] (e : Evaluator)

/-- The memory after a run. -/
def after : List Step → σ → σ := Action.stateAfter (run e)

/-- The step gave an answer. -/
def answers (o : Outcome σ Fault Answer) : Bool := o.result.isOk

/-- The steps that give an answer in a run, the others left out. -/
def answered (steps : List Step) (m : σ) : List Step :=
  ((steps.zip (runAll e steps m)).filter fun p => answers p.2).map Prod.fst

lemma answered_cons (s : Step) (steps : List Step) (m : σ) :
    answered e (s :: steps) m =
      if answers ((s.run e).run m) then s :: answered e steps ((s.run e).run m).state
      else answered e steps ((s.run e).run m).state := by
  rw [answered, runAll, Action.runAll_cons, List.zip_cons_cons, List.filter_cons]
  split <;> rfl

variable {e} {steps : List Step}

/-- If steps that fail change nothing, a run goes the same way without them. -/
theorem runAll_answered (h : ∀ s ∈ steps, (s.run e : Action σ Fault Answer).FailsCleanly) (m : σ) :
    runAll e (answered e steps m) m = (runAll e steps m).filter answers ∧
      after e (answered e steps m) m = after e steps m := by
  induction steps generalizing m with
  | nil => exact ⟨rfl, rfl⟩
  | cons s steps ih =>
    have hrest := ih fun s hs => h s (List.mem_cons_of_mem _ hs)
    rw [runAll, after, Action.runAll_cons, Action.stateAfter_cons, answered_cons]
    cases hr : ((s.run e).run m).result with
    | ok a =>
      have hok : answers ((s.run e).run m) = true := by rw [answers, hr]; rfl
      obtain ⟨hrun, hafter⟩ := hrest ((s.run e).run m).state
      rw [if_pos hok, List.filter_cons_of_pos hok]
      exact ⟨congrArg _ hrun, hafter⟩
    | error err =>
      -- the run goes on from the memory that the failing step found
      have hok : ¬ answers ((s.run e).run m) = true := by
        rw [answers, hr]
        exact Bool.false_ne_true
      have hm : ((s.run e).run m).state = m := h s List.mem_cons_self m err hr
      rw [if_neg hok, List.filter_cons_of_neg hok, hm]
      exact hrest m

end Run

/-- **Failures are no-ops over whole runs**, with every evaluator made from settings. Each step
that fails leaves the bytes as it found them, and without the steps that fail a run gives the same
outcomes for the others and ends with the same memory. -/
theorem failures_are_noops {σ : Type} {e : Evaluator} {s : Settings} {host : HostTarget} {m₀ : σ}
    (he : ((Setup.ofSettings s host).run m₀).result = .ok e) {steps : List Step}
    (hsteps : ∀ s ∈ steps, s.Sound) (m : ByteMemory) :
    (∀ (i : Nat) (o : Outcome ByteMemory Fault Answer) (err : Fault),
      (runAll e steps m)[i]? = some o → o.result = .error err →
        o.state = after e (steps.take i) m) ∧
      runAll e (answered e steps m) m = (runAll e steps m).filter answers ∧
      after e (answered e steps m) m = after e steps m := by
  have hclean : ∀ s ∈ steps, (s.run e : Action ByteMemory Fault Answer).FailsCleanly :=
    fun s hs => failsCleanly_run (Evaluator.sound_of_ofSettings he) (hsteps s hs)
  refine ⟨?_, runAll_answered hclean m⟩
  intro i o err hi herr
  rw [runAll, Action.getElem?_runAll, Option.map_eq_some_iff] at hi
  obtain ⟨s, hs, rfl⟩ := hi
  exact hclean s (List.mem_of_getElem? hs) _ err herr

/-- A new region, an addition that fits, one that would lie half outside, a call of no intrinsic
and a store into no region. -/
def threeFailures : List Step :=
  [.allocate 16,
    .arith .sadd .w8 (.ofBits .w8 100) (.ofBits .w8 100) ⟨0, 4⟩,
    .arith .uadd .w32 (.ofBits .w32 1) (.ofBits .w32 2) ⟨0, 12⟩,
    .call "llvm.fabs.f64" [] fun _ => .ok .unit,
    .write ⟨1, 0⟩ 0 .w8 1]

theorem threeFailures_left_out :
    ((Setup.ofSettings {} .known).run ()).result = .ok Evaluator.plain ∧
      (∀ s ∈ threeFailures, s.Sound) ∧
      answered .plain threeFailures ByteMemory.empty = threeFailures.take 2 ∧
      after .plain (threeFailures.take 2) ByteMemory.empty =
        after .plain threeFailures ByteMemory.empty := by
  have hsound : ∀ s ∈ threeFailures, s.Sound := by
    intro s hs
    simp only [threeFailures, List.mem_cons, List.not_mem_nil, or_false] at hs
    rcases hs with rfl | rfl | rfl | rfl | rfl <;> trivial
  have hans : answered .plain threeFailures ByteMemory.empty = threeFailures.take 2 := by
    rfl
  have h := failures_are_noops (Evaluator.result_default .known ()) hsound ByteMemory.empty
  rw [hans] at h
  exact ⟨Evaluator.result_default .known (), hsound, hans, h.2.2⟩

end Step

end FixedInt
