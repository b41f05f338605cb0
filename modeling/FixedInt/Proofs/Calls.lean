import FixedInt.Memory.Traced
import FixedInt.Proofs.Runs

/-!
Which calls of a memory an evaluation makes, whatever the memory answers. A store makes three calls
in order, up to the first one that is refused. An evaluation makes the calls of its store, and
nothing else that an evaluator does makes any.
-/

namespace FixedInt

/-! ### Calls in order -/

/-- Calls that were made, each with the answer of the memory. -/
abbrev Transcript := List (MemoryCall × Except MemoryError Unit)

/-- Makes the call. What a load gives is dropped. -/
def MemoryCall.perform {σ : Type} [Memory σ] : MemoryCall → Access σ Unit
  | write a off w b => Memory.write a off w b
  | read a off w => fun m =>
    let (answer, m) := Memory.read a off w m
    (answer.map fun _ => (), m)
  | check a n => Memory.check a n

/-- The calls are made on the first memory one after another, up to the first that is refused. That
gives the transcript and the last answer, and leaves the second memory. -/
inductive Performs {σ : Type} [Memory σ] :
    List MemoryCall → σ → Transcript → Except MemoryError Unit → σ → Prop where
  | done (m : σ) : Performs [] m [] (.ok ()) m
  | stop {c : MemoryCall} {m m' : σ} {err : MemoryError} (cs : List MemoryCall)
      (h : c.perform m = (.error err, m')) : Performs (c :: cs) m [(c, .error err)] (.error err) m'
  | next {c : MemoryCall} {cs : List MemoryCall} {m m' m'' : σ} {made : Transcript}
      {answer : Except MemoryError Unit} (h : c.perform m = (.ok (), m'))
      (rest : Performs cs m' made answer m'') :
      Performs (c :: cs) m ((c, .ok ()) :: made) answer m''

namespace Performs

variable {σ : Type} [Memory σ]

/-- Every memory takes the calls in some way. -/
theorem exists_transcript (cs : List MemoryCall) (m : σ) :
    ∃ made answer m', Performs cs m made answer m' := by
  induction cs generalizing m with
  | nil => exact ⟨_, _, _, done m⟩
  | cons c cs ih =>
    rcases hc : c.perform m with ⟨_ | _, m'⟩
    · exact ⟨_, _, _, stop cs hc⟩
    · obtain ⟨made, answer, m'', h⟩ := ih m'
      exact ⟨_, _, _, next hc h⟩

variable {cs : List MemoryCall} {m m' : σ} {made : Transcript} {answer : Except MemoryError Unit}

lemma map_fst_prefix (h : Performs cs m made answer m') : made.map Prod.fst <+: cs := by
  induction h with
  | done m => exact List.prefix_refl _
  | stop cs h => exact ⟨cs, rfl⟩
  | next h rest ih => exact (List.prefix_cons_inj _).2 ih

/-- All is well exactly if every call was made and none was refused. -/
lemma eq_ok_iff (h : Performs cs m made answer m') :
    answer = .ok () ↔ made = cs.map fun c => (c, .ok ()) := by
  induction h with
  | done m => simp
  | stop cs h => simp
  | next h rest ih => simpa using ih

/-- A refusal is that of the last call made, and all calls before it were granted. -/
lemma eq_error_iff (h : Performs cs m made answer m') {err : MemoryError} :
    answer = .error err ↔ ∃ (granted : List MemoryCall) (c : MemoryCall),
      made = granted.map (fun c => (c, .ok ())) ++ [(c, .error err)] := by
  induction h with
  | done m => simp
  | @stop c m m' err' cs h =>
    constructor
    · intro herr
      cases herr
      exact ⟨[], c, rfl⟩
    · rintro ⟨granted, c', hmade⟩
      cases granted <;> simp_all
  | @next c cs m m' m'' made answer h rest ih =>
    rw [ih]
    constructor
    · rintro ⟨granted, c', hmade⟩
      exact ⟨c :: granted, c', congrArg _ hmade⟩
    · rintro ⟨granted, c', hmade⟩
      cases granted with
      | nil => simp at hmade
      | cons c granted => exact ⟨granted, c', (List.cons.inj hmade).2⟩

lemma perform_traced (c : MemoryCall) (m : σ) (before : List MemoryCall) :
    c.perform (⟨m, before⟩ : Traced σ) =
      ((c.perform m).1, ⟨(c.perform m).2, before ++ [c]⟩) := by
  cases c <;> rfl

/-- A memory that records its calls takes them as the memory inside does. -/
theorem traced (h : Performs cs m made answer m') (before : List MemoryCall) :
    Performs cs (⟨m, before⟩ : Traced σ) made answer ⟨m', before ++ made.map Prod.fst⟩ := by
  induction h generalizing before with
  | done m => simpa using done (⟨m, before⟩ : Traced σ)
  | @stop c m m' err cs h =>
    refine stop cs ?_
    rw [perform_traced, h]
    rfl
  | @next c cs m m' m'' made answer h rest ih =>
    have hc : c.perform (⟨m, before⟩ : Traced σ) = (.ok (), ⟨m', before ++ [c]⟩) := by
      rw [perform_traced, h]
    simpa using next hc (ih (before ++ [c]))

end Performs

/-! ### Calls of a store -/

namespace Action

variable {σ : Type}

lemma bind_unit {ε : Type} (x : Action σ ε Unit) : (x >>= fun _ => pure ()) = x := by
  funext s
  have h := run_bind_pure x (fun _ => ()) s
  have hmap : (x.run s).result.map (fun _ => ()) = (x.run s).result := by
    cases (x.run s).result <;> rfl
  rwa [hmap] at h

/-- Makes calls one after another as part of an evaluation. -/
def calls [Memory σ] : List MemoryCall → Action σ EvalError Unit
  | [] => pure ()
  | c :: cs => do
    Action.memory c.perform
    calls cs

lemma run_calls [Memory σ] {cs : List MemoryCall} {m m' : σ} {made : Transcript}
    {answer : Except MemoryError Unit} (h : Performs cs m made answer m') :
    (calls cs).run m = ⟨answer.mapError .memory, m', []⟩ := by
  induction h with
  | done m => rfl
  | stop cs h =>
    have hstop := run_memory h
    rw [calls, run_bind_of_error _ (congrArg Outcome.result hstop), hstop]
    rfl
  | next h rest ih => rw [calls, run_bind_of_silent (run_memory h), ih]

end Action

/-- The calls that a store of a result makes if none of them is refused. -/
def ResultSlots.calls (slots : ResultSlots) (dest : Address) (r : CheckedResult) :
    List MemoryCall :=
  [.check dest slots.extent, .write dest 0 r.width r.value.bits,
    .write dest slots.flagOffset slots.flagWidth r.overflow.toUInt64]

/-- A store is its calls. -/
lemma ResultSlots.store_eq_calls {σ : Type} [Memory σ] {slots : ResultSlots} {r : CheckedResult}
    (hr : r.width = slots.width) (dest : Address) :
    (slots.store dest r : Action σ EvalError Unit) = Action.calls (slots.calls dest r) := by
  rw [store, if_pos hr, ResultSlots.calls, hr]
  simp only [Action.calls, Action.bind_unit]
  rfl

/-- The calls made are the first of those meant to be made, and the last of them decides: if it was
refused, the refusal is the failure; if all were granted, the destination is the answer. -/
structure Transcript.Decides (made : Transcript) (calls : List MemoryCall) (dest : Address)
    (result : Except EvalError Address) : Prop where
  order : made.map Prod.fst <+: calls
  no_read : ∀ a off v, .read a off v ∉ made.map Prod.fst
  ok_iff : ∀ a, result = .ok a ↔ a = dest ∧ made = calls.map fun c => (c, .ok ())
  error_iff : ∀ err, result = .error err ↔ ∃ cause, err = .memory cause ∧
    ∃ (granted : List MemoryCall) (c : MemoryCall),
      made = granted.map (fun c => (c, .ok ())) ++ [(c, .error cause)]

lemma Performs.decides {σ : Type} [Memory σ] {slots : ResultSlots} {dest : Address}
    {r : CheckedResult} {m m' : σ} {made : Transcript} {answer : Except MemoryError Unit}
    (h : Performs (slots.calls dest r) m made answer m') :
    made.Decides (slots.calls dest r) dest ((answer.mapError .memory).map fun _ => dest) where
  order := h.map_fst_prefix
  no_read a off v hmem := by simpa [ResultSlots.calls] using h.map_fst_prefix.subset hmem
  ok_iff a := by
    rw [← h.eq_ok_iff]
    cases answer <;> simp [Except.map, Except.mapError, eq_comm]
  error_iff err := by
    simp only [← h.eq_error_iff]
    cases answer <;> simp [Except.map, Except.mapError, eq_comm]

/-! ### Calls of an evaluation -/

/-- The call of an intrinsic that computes and stores: it has a destination and two scalars. -/
structure ArithCall {ι : Type} (name : String) (operands : List ι)
    (read : ι → Except EvalError Value) (op : ArithOp) (w : Width) (left right : Scalar)
    (dest : Address) : Prop where
  intrinsic : Intrinsic.lookup name = .ok (.arith op w)
  values : operands.mapM read = .ok [.address dest, .scalar left, .scalar right]

namespace Evaluator

variable {e : Evaluator}

section Call

variable {ι : Type} {name : String} {operands : List ι} {read : ι → Except EvalError Value}

/-- Such a call is the evaluation, with the destination as a value. -/
lemma run_call_of_arith {op : ArithOp} {w : Width} {left right : Scalar} {dest : Address}
    (h : ArithCall name operands read op w left right dest) {σ : Type} [Memory σ] (m : σ) :
    (e.call name operands read).run m =
      let o := (e.arith op w left right dest).run m
      ⟨o.result.map .address, o.state, o.log⟩ := by
  have hlength : operands.length = Intrinsic.arity (.arith op w) := by
    simpa [Intrinsic.arity] using congrArg List.length (Except.mapM_eq_ok.1 h.values)
  rw [call, h.intrinsic, Action.run_bind_of_silent (Action.run_ofExcept _ _), if_pos hlength,
    h.values, Action.run_bind_of_silent (Action.run_ofExcept _ _)]
  exact Action.run_bind_pure _ _ _

/-- Any other call leaves every memory alone. -/
lemma leavesState_call (h : ∀ op w left right dest,
      ¬ ArithCall name operands read op w left right dest) {σ : Type} [Memory σ] :
    (e.call name operands read : Action σ EvalError Value).LeavesState := by
  intro m
  unfold call
  cases hi : Intrinsic.lookup name with
  | error err => rfl
  | ok i =>
    rw [Action.run_bind_of_silent (Action.run_ofExcept _ _)]
    split
    · cases hv : operands.mapM read with
      | error err => rfl
      | ok values =>
        rw [Action.run_bind_of_silent (Action.run_ofExcept _ _)]
        unfold apply
        split
        · exact absurd ⟨hi, hv⟩ (h _ _ _ _ _)
        · exact (leavesState_compare _ _ _).bind (fun _ => Action.leavesState_pure _) m
        · exact (leavesState_assume _).bind (fun _ => Action.leavesState_pure _) m
        · rfl
    · rfl

end Call

section Arith

variable {op : ArithOp} {w : Width} {left right : Scalar} {r : CheckedResult} {dest : Address}

variable {σ : Type} [Memory σ] {m m' : σ} {made : Transcript} {answer : Except MemoryError Unit}

/-- An evaluation makes the calls of its store. -/
lemma run_arith_of_performs (hw : (e.slots.get w).width = w) (hl : left.width = w)
    (hr : right.width = w) (hc : op.compute left right = .ok r)
    (h : Performs ((e.slots.get w).calls dest r) m made answer m') :
    (e.arith op w left right dest).run m =
      ⟨(answer.mapError .memory).map fun _ => dest, m', [.arithmetic op left right r]⟩ := by
  obtain ⟨hrw, hrun⟩ := e.run_arith_of_compute op dest m hl hr hc
  rw [hrun, ResultSlots.store_eq_calls (hrw.trans hw.symm), Action.run_calls h]

end Arith

/-- **Which calls of its memory an evaluator makes**, however it was made and whatever the memory
answers. Operands that have not the declared width are refused without a call. Otherwise the range
is checked, then the value is stored, then the flag, up to the first refusal, which is the failure;
if there is none, the answer is the destination. A call of an intrinsic by name makes the calls of
its evaluation if it has a destination and two scalars, and no calls in all other cases. -/
theorem calls_of_evaluation {σ τ ι : Type} [Memory σ] {setup : Setup} {s : τ} {e : Evaluator}
    (he : (setup.build.run s).result = .ok e) (m : σ) (before : List MemoryCall) :
    (∀ (op : ArithOp) (w : Width) (left right : Scalar) (dest : Address),
      if left.width = w ∧ right.width = w then
        ∃ r made answer m' result, op.compute left right = .ok r ∧ r.width = w ∧
          Performs ((e.slots.get w).calls dest r) m made answer m' ∧
          made.Decides ((e.slots.get w).calls dest r) dest result ∧
          (e.arith op w left right dest).run m = ⟨result, m', [.arithmetic op left right r]⟩ ∧
          (e.arith op w left right dest).run (⟨m, before⟩ : Traced σ) =
            ⟨result, ⟨m', before ++ made.map Prod.fst⟩, [.arithmetic op left right r]⟩
      else
        (∃ cause, (e.arith op w left right dest).run m = ⟨.error (.unsupported cause), m, []⟩) ∧
          ∃ cause, (e.arith op w left right dest).run (⟨m, before⟩ : Traced σ) =
            ⟨.error (.unsupported cause), ⟨m, before⟩, []⟩) ∧
    ∀ (name : String) (operands : List ι) (read : ι → Except EvalError Value),
      (∀ op w left right dest, ArithCall name operands read op w left right dest →
        ∀ t : Traced σ, (e.call name operands read).run t =
          let o := (e.arith op w left right dest).run t
          ⟨o.result.map .address, o.state, o.log⟩) ∧
      ((∀ op w left right dest, ¬ ArithCall name operands read op w left right dest) →
        ∀ t : Traced σ, ((e.call name operands read).run t).state = t) := by
  refine ⟨fun op w left right dest => ?_, fun name operands read => ⟨?_, fun h => ?_⟩⟩
  · split_ifs with hlr
    · obtain ⟨r, hc, hrw, -⟩ := e.run_arith_of_width op dest m hlr.1 hlr.2
      obtain ⟨made, answer, m', h⟩ :=
        Performs.exists_transcript ((e.slots.get w).calls dest r) m
      have hw := width_of_build he w
      exact ⟨r, made, answer, m', _, hc, hrw, h, h.decides,
        run_arith_of_performs hw hlr.1 hlr.2 hc h,
        run_arith_of_performs hw hlr.1 hlr.2 hc (h.traced before)⟩
    · exact ⟨e.run_arith_of_width_ne op dest m hlr, e.run_arith_of_width_ne op dest _ hlr⟩
  · exact fun op w left right dest h t => run_call_of_arith h t
  · exact leavesState_call h

/-- A memory of one region of four bytes that says yes to every range check, and no calls yet. -/
def uncheckedFour : Traced (Unchecked ByteMemory) := ⟨⟨⟨[Region.zeros 4]⟩⟩, []⟩

theorem plain_calls_uncheckedFour :
    ((Setup.settings {} .known).build.run ()).result = .ok plain ∧
      let o := (plain.arith .uadd .w32 (.ofBits .w32 7) (.ofBits .w32 2) ⟨0, 0⟩).run uncheckedFour
      o.result = .error (.memory (.outOfBounds ⟨0, 4⟩ 4)) ∧
        ∃ made : Transcript, o.state.calls = made.map Prod.fst ∧
          made = [(.check ⟨0, 0⟩ 8, .ok ()), (.write ⟨0, 0⟩ 0 .w32 9, .ok ()),
            (.write ⟨0, 0⟩ 4 .w32 0, .error (.outOfBounds ⟨0, 4⟩ 4))] := by
  have hmade : ((Setup.settings {} .known).build.run ()).result = .ok plain :=
    result_default .known ()
  obtain ⟨harith, -⟩ := calls_of_evaluation (ι := Unit) hmade uncheckedFour.memory []
  have h := harith .uadd .w32 (.ofBits .w32 7) (.ofBits .w32 2) ⟨0, 0⟩
  rw [if_pos ⟨rfl, rfl⟩] at h
  obtain ⟨r, made, answer, m', result, -, -, -, hdecides, -, hrun⟩ := h
  have hresult : result = .error (.memory (.outOfBounds ⟨0, 4⟩ 4)) :=
    (congrArg Outcome.result hrun).symm
  have hcalls : made.map Prod.fst =
      [.check ⟨0, 0⟩ 8, .write ⟨0, 0⟩ 0 .w32 9] ++ [.write ⟨0, 0⟩ 4 .w32 0] :=
    (congrArg (fun o => o.state.calls) hrun).symm
  refine ⟨hmade, rfl, made, hcalls.symm, ?_⟩
  -- the failure is that of the last call, and the calls before it were granted
  obtain ⟨cause, hcause, granted, c, rfl⟩ := (hdecides.error_iff _).1 hresult
  cases hcause
  simp only [List.map_append, List.map_map, List.map_cons, List.map_nil] at hcalls
  obtain ⟨hgranted, hc⟩ := List.append_inj' hcalls rfl
  cases hc
  have hid : granted.map (Prod.fst ∘ fun c => (c, (.ok () : Except MemoryError Unit))) =
    granted := List.map_id _
  rw [hid] at hgranted
  rw [hgranted]
  rfl

end Evaluator

end FixedInt
