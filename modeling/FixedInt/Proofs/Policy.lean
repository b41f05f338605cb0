import FixedInt.Proofs.ByName
import FixedInt.Proofs.Comparing

/-!
What becomes of false assumptions makes no difference but for records. Two evaluators with the same
slots, of which one ignores false assumptions and the other one records them, answer alike and leave
the same memory after any requests, and the second one records the same and a warning for each false
assumption.
-/

namespace FixedInt

/-! ### Records -/

/-- No record that the action makes is a warning. -/
def Action.NoWarning {σ ε α : Type} (x : Action σ ε α) : Prop :=
  ∀ s, ∀ ev ∈ (x.run s).log, ev.level ≠ .warn

section NoWarning

variable {σ ε ε' α β : Type}

lemma Action.noWarning_ofExcept (x : Except ε α) : (ofExcept x : Action σ ε α).NoWarning := by
  intro s ev hev
  cases hev

lemma Action.noWarning_memory [Memory σ] (x : Access σ α) : (Action.memory x).NoWarning := by
  intro s ev hev
  cases hev

lemma Action.NoWarning.bind {x : Action σ ε α} {f : α → Action σ ε β} (hx : x.NoWarning)
    (hf : ∀ a, (f a).NoWarning) : (x >>= f).NoWarning := by
  intro s ev hev
  cases h : (x.run s).result with
  | ok a =>
    rw [run_bind_of_ok f h] at hev
    rcases List.mem_append.1 hev with hev | hev
    · exact hx s ev hev
    · exact hf a _ ev hev
  | error err =>
    rw [run_bind_of_error f h] at hev
    exact hx s ev hev

lemma Action.noWarning_pure (a : α) : (pure a : Action σ ε α).NoWarning :=
  noWarning_ofExcept (.ok a)

lemma Action.noWarning_traced {event : α → Event} (h : ∀ a, (event a).level ≠ .warn)
    (x : Except ε α) : (traced event x : Action σ ε α).NoWarning := by
  refine (noWarning_ofExcept x).bind fun a => NoWarning.bind ?_ fun _ => noWarning_pure a
  intro s ev hev
  rw [List.mem_singleton.1 hev]
  exact h a

end NoWarning

lemma Plan.noWarning_traceArith {σ : Type} (plan : Plan) (left right : Scalar) :
    (plan.traceArith left right : Action σ EvalError CheckedResult).NoWarning := by
  cases plan with
  | arith op w => exact Action.noWarning_traced (fun r => by simp [Event.level]) _
  | compare p w n => exact Action.noWarning_ofExcept _

lemma ResultSlots.noWarning_store {σ : Type} [Memory σ] (slots : ResultSlots) (dest : Address)
    (r : CheckedResult) : (slots.store dest r : Action σ EvalError Unit).NoWarning := by
  unfold store
  split
  · exact (Action.noWarning_memory _).bind fun _ => (Action.noWarning_memory _).bind fun _ =>
      Action.noWarning_memory _
  · exact Action.noWarning_ofExcept _

namespace Evaluator

variable {σ ι : Type} [Memory σ]

lemma noWarning_arith (e : Evaluator) (op : ArithOp) (w : Width) (left right : Scalar)
    (dest : Address) : (e.arith op w left right dest : Action σ EvalError Address).NoWarning := by
  refine (Action.noWarning_ofExcept _).bind fun plan => ?_
  split
  · exact (plan.noWarning_traceArith left right).bind fun r =>
      ((e.slots.get w).noWarning_store dest r).bind fun _ => Action.noWarning_pure dest
  · exact Action.noWarning_ofExcept _

omit [Memory σ] in
lemma noWarning_compare (e : Evaluator) (p : Predicate) (left right : LaneVector) :
    (e.compare p left right : Action σ EvalError (List Bool)).NoWarning := by
  intro s ev hev
  rw [compare, p.run_traceCompare] at hev
  split at hev
  · rw [List.mem_singleton.1 hev]
    simp [Event.level]
  · cases hev

omit [Memory σ] in
/-- An evaluator that ignores false assumptions takes no note of any. -/
lemma noWarning_assume (slots : PerWidth ResultSlots) (condition : Bool) :
    (assume ⟨slots, .ignore⟩ condition : Action σ EvalError Unit).NoWarning := by
  unfold assume
  rw [if_neg (by simp)]
  exact Action.noWarning_pure ()

lemma noWarning_apply (slots : PerWidth ResultSlots) (i : Intrinsic) (name : String)
    (values : List Value) :
    (apply ⟨slots, .ignore⟩ i name values : Action σ EvalError Value).NoWarning := by
  unfold apply
  split
  · exact (noWarning_arith _ _ _ _ _ _).bind fun _ => Action.noWarning_pure _
  · exact (noWarning_compare _ _ _ _).bind fun _ => Action.noWarning_pure _
  · exact (noWarning_assume slots _).bind fun _ => Action.noWarning_pure _
  · exact Action.noWarning_ofExcept _

lemma noWarning_call (slots : PerWidth ResultSlots) (name : String) (operands : List ι)
    (read : ι → Except EvalError Value) :
    (call ⟨slots, .ignore⟩ name operands read : Action σ EvalError Value).NoWarning := by
  refine (Action.noWarning_ofExcept _).bind fun i => ?_
  split
  · exact (Action.noWarning_ofExcept _).bind fun values => noWarning_apply slots i name values
  · exact Action.noWarning_ofExcept _

/-! ### Calls under both policies -/

/-- The call makes an assumption, and it is false. -/
def AssumesFalsely (name : String) (operands : List ι) (read : ι → Except EvalError Value) : Prop :=
  name = "llvm.assume" ∧ operands.map read = [.ok (.bool false)]

instance (name : String) (operands : List ι) (read : ι → Except EvalError Value) :
    Decidable (AssumesFalsely name operands read) := by unfold AssumesFalsely; infer_instance

variable {name : String} {operands : List ι} {read : ι → Except EvalError Value}

/-- A false assumption is granted like any other. -/
lemma run_call_of_assumesFalsely (h : AssumesFalsely name operands read) (e : Evaluator) (m : σ) :
    (e.call name operands read).run m =
      ⟨.ok .unit, m, if e.assumptionPolicy = .warn then [.falseAssumption] else []⟩ := by
  rw [e.run_call_of_called m (.assume h.1.symm h.2)]
  simp

/-- The policy plays no part in any other call. -/
lemma run_call_of_not_assumesFalsely (h : ¬ AssumesFalsely name operands read)
    (slots : PerWidth ResultSlots) (p q : AssumptionPolicy) (m : σ) :
    (call ⟨slots, p⟩ name operands read).run m = (call ⟨slots, q⟩ name operands read).run m := by
  obtain ⟨o, ho⟩ : ∃ o, Called ⟨slots, p⟩ name operands read m o := exists_called _ m
  rw [run_call_of_called _ m ho]
  refine (run_call_of_called ⟨slots, q⟩ m ?_).symm
  cases ho with
  | unknown hi => exact .unknown hi
  | arity hi hlength => exact .arity hi hlength
  | unreadable hi hlength hsplit hbefore hread => exact .unreadable hi hlength hsplit hbefore hread
  | arith hi hvalues => exact .arith hi hvalues
  | compare hi hvalues => exact .compare hi hvalues
  | @assume condition hi hvalues =>
    have hc : condition = true := by
      cases condition with
      | true => rfl
      | false => exact absurd ⟨hi.symm, hvalues⟩ h
    subst hc
    exact .assume hi hvalues
  | mistaken hi hlength hread hkinds => exact .mistaken hi hlength hread hkinds

end Evaluator

/-! ### Requests -/

/-- What a host can ask of an evaluator. It finds the values of the operands of a call itself. -/
inductive Request (ι : Type) where
  | call (name : String) (operands : List ι) (read : ι → Except EvalError Value)
  | arith (op : ArithOp) (width : Width) (left right : Scalar) (dest : Address)
  | compare (predicate : Predicate) (left right : LaneVector)

namespace Request

variable {σ ι : Type} [Memory σ]

/-- Carries out a request. -/
def run (e : Evaluator) : Request ι → Action σ EvalError Value
  | call name operands read => e.call name operands read
  | arith op w left right dest => do return .address (← e.arith op w left right dest)
  | compare p left right => do return .bools (← e.compare p left right)

/-- Carries out requests, each on the memory that the ones before it left. -/
def runAll (e : Evaluator) : List (Request ι) → σ → List (Outcome σ EvalError Value) :=
  Action.runAll (run e)

/-- The memory after some requests. -/
def after (e : Evaluator) : List (Request ι) → σ → σ := Action.stateAfter (run e)

/-- The warning that belongs to the request, if it is a call that makes a false assumption. -/
def warnings : Request ι → List Event
  | call name operands read =>
    if Evaluator.AssumesFalsely name operands read then [.falseAssumption] else []
  | arith .. => []
  | compare .. => []

lemma level_of_mem_warnings {r : Request ι} {ev : Event} (h : ev ∈ r.warnings) :
    ev.level = .warn := by
  unfold warnings at h
  split at h
  · split_ifs at h
    · rw [List.mem_singleton.1 h]
      rfl
    · cases h
  · cases h
  · cases h

/-- A request that gives a warning is granted. -/
lemma result_of_warnings (e : Evaluator) {r : Request ι} (h : r.warnings ≠ []) (m : σ) :
    ((r.run e).run m).result = .ok .unit := by
  cases r with
  | call name operands read =>
    have hfalse : Evaluator.AssumesFalsely name operands read := by
      by_contra hn
      exact h (if_neg hn)
    rw [run, Evaluator.run_call_of_assumesFalsely hfalse]
  | arith op w left right dest => exact absurd rfl h
  | compare p left right => exact absurd rfl h

variable (slots : PerWidth ResultSlots)

lemma noWarning_run (r : Request ι) :
    (r.run ⟨slots, .ignore⟩ : Action σ EvalError Value).NoWarning := by
  cases r with
  | call name operands read => exact Evaluator.noWarning_call slots name operands read
  | arith op w left right dest =>
    exact (Evaluator.noWarning_arith _ op w left right dest).bind fun _ => Action.noWarning_pure _
  | compare p left right =>
    exact (Evaluator.noWarning_compare _ p left right).bind fun _ => Action.noWarning_pure _

/-- **One request under both policies**: the warnings follow the other records. -/
theorem run_warn (r : Request ι) (m : σ) :
    (r.run ⟨slots, .warn⟩).run m =
      { (r.run ⟨slots, .ignore⟩).run m with
        log := ((r.run ⟨slots, .ignore⟩).run m).log ++ r.warnings } := by
  cases r with
  | call name operands read =>
    rw [run, run, warnings]
    by_cases h : Evaluator.AssumesFalsely name operands read
    · rw [Evaluator.run_call_of_assumesFalsely h, Evaluator.run_call_of_assumesFalsely h, if_pos h]
      rfl
    · rw [Evaluator.run_call_of_not_assumesFalsely h slots .warn .ignore, if_neg h,
        List.append_nil]
  | arith op w left right dest =>
    rw [warnings, List.append_nil]
    rfl
  | compare p left right =>
    rw [warnings, List.append_nil]
    rfl

/-! ### Runs -/

/-- The records of a request under both policies, parted by whether they are warnings. -/
lemma logs_run (r : Request ι) (m : σ) :
    ((r.run ⟨slots, .ignore⟩).run m).log.filter (·.level = .warn) = [] ∧
      ((r.run ⟨slots, .warn⟩).run m).log.filter (·.level ≠ .warn) =
        ((r.run ⟨slots, .ignore⟩).run m).log ∧
      ((r.run ⟨slots, .warn⟩).run m).log.filter (·.level = .warn) = r.warnings := by
  have hquiet : ∀ ev ∈ ((r.run ⟨slots, .ignore⟩).run m).log, ev.level ≠ .warn :=
    noWarning_run slots r m
  have hwarnings : ∀ ev ∈ r.warnings, ev.level = .warn := fun _ hev => level_of_mem_warnings hev
  have hnone : ((r.run ⟨slots, .ignore⟩).run m).log.filter (·.level = .warn) = [] :=
    List.filter_eq_nil_iff.2 fun ev hev => by simpa using hquiet ev hev
  refine ⟨hnone, ?_, ?_⟩
  · rw [run_warn, List.filter_append,
      List.filter_eq_self.2 fun ev hev => by simpa using hquiet ev hev,
      List.filter_eq_nil_iff.2 fun ev hev => by simpa using hwarnings ev hev, List.append_nil]
  · rw [run_warn, List.filter_append, hnone,
      List.filter_eq_self.2 fun ev hev => by simpa using hwarnings ev hev, List.nil_append]

/-- **The policy for false assumptions never influences evaluation.** Two evaluators with the same
slots, one of which ignores false assumptions while the other records them, give the same answers
and failures to any requests, one after another, and leave the same memory after each of them. The
records are the same but for warnings; the first evaluator makes none, and the second one makes
exactly one for each call that assumes what is false, at that call, which is granted. -/
theorem runAll_policies (requests : List (Request ι)) (m : σ) :
    let quiet := runAll ⟨slots, .ignore⟩ requests m
    let loud := runAll ⟨slots, .warn⟩ requests m
    loud.map (·.result) = quiet.map (·.result) ∧
    loud.map (·.state) = quiet.map (·.state) ∧
    after ⟨slots, .warn⟩ requests m = after ⟨slots, .ignore⟩ requests m ∧
    loud.map (fun o => o.log.filter (·.level ≠ .warn)) = quiet.map (·.log) ∧
    quiet.map (fun o => o.log.filter (·.level = .warn)) = requests.map (fun _ => []) ∧
    loud.map (fun o => o.log.filter (·.level = .warn)) = requests.map warnings ∧
    ∀ p ∈ requests.zip loud, p.1.warnings ≠ [] → p.2.result = .ok .unit := by
  simp only [runAll, after]
  induction requests generalizing m with
  | nil => simp [Action.runAll, Action.stateAfter]
  | cons r rs ih =>
    have hstep := run_warn slots r m
    obtain ⟨hnone, hothers, hwarnings⟩ := logs_run slots r m
    have hresult := congrArg Outcome.result hstep
    have hstate := congrArg Outcome.state hstep
    obtain ⟨ih1, ih2, ih3, ih4, ih5, ih6, ih7⟩ := ih ((r.run ⟨slots, .ignore⟩).run m).state
    simp only [Action.runAll_cons, Action.stateAfter_cons, List.map_cons, List.zip_cons_cons,
      List.forall_mem_cons, hstate]
    rw [hresult, hnone, hothers, hwarnings, ih1, ih2, ih4, ih5, ih6]
    exact ⟨rfl, rfl, ih3, rfl, rfl, rfl, fun h => result_of_warnings _ h m, ih7⟩

end Request

end FixedInt
