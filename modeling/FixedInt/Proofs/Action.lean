import FixedInt.Action
import Mathlib.Tactic.Lemma
import FixedInt.Width

/-!
What sequences of actions come to, part by part: the answer or failure, the state and the records
of a sequence from those of its steps. Then the same for an action that is carried out for each
width in turn: it gives one answer for each width, or the failure of the smallest width that fails.
-/

namespace FixedInt

/-! ### Answers and failures -/

namespace Except

variable {ε ε' α β : Type}

lemma bind_eq_ok {x : Except ε α} {f : α → Except ε β} {b : β} :
    x >>= f = .ok b ↔ ∃ a, x = .ok a ∧ f a = .ok b := by
  cases x <;> simp [bind, Except.bind]

lemma bind_eq_error {x : Except ε α} {f : α → Except ε β} {e : ε} :
    x >>= f = .error e ↔ x = .error e ∨ ∃ a, x = .ok a ∧ f a = .error e := by
  cases x <;> simp [bind, Except.bind]

lemma map_eq_ok {x : Except ε α} {f : α → β} (hf : Function.Injective f) {a : α} :
    x.map f = .ok (f a) ↔ x = .ok a := by
  cases x <;> simp [Except.map, hf.eq_iff]

lemma map_eq_error {x : Except ε α} {f : α → β} {e : ε} : x.map f = .error e ↔ x = .error e := by
  cases x <;> simp [Except.map]

lemma exists_of_map_eq_ok {x : Except ε α} {f : α → β} {b : β} (h : x.map f = .ok b) :
    ∃ a, x = .ok a := by
  cases x with
  | ok a => exact ⟨a, rfl⟩
  | error e => cases h

lemma mapError_eq_ok {x : Except ε α} {f : ε → ε'} {a : α} : x.mapError f = .ok a ↔ x = .ok a := by
  constructor
  · intro h
    cases x with
    | ok b =>
      cases h
      rfl
    | error e => cases h
  · rintro rfl
    rfl

/-- All of a list is answered if each part of it is. -/
theorem mapM_eq_ok {f : α → Except ε β} {as : List α} {bs : List β} :
    as.mapM f = .ok bs ↔ as.map f = bs.map .ok := by
  induction as generalizing bs with
  | nil => cases bs <;> simp [pure, Except.pure]
  | cons a as ih =>
    simp only [List.mapM_cons, bind_eq_ok, ih]
    constructor
    · rintro ⟨b, hb, bs', hbs, h⟩
      cases h
      rw [List.map_cons, hb, hbs, List.map_cons]
    · intro h
      cases bs with
      | nil => cases h
      | cons b bs =>
        obtain ⟨hb, hbs⟩ := List.cons.inj h
        exact ⟨b, hb, bs, hbs, rfl⟩

/-- The failure is that of the first part that fails. -/
theorem mapM_eq_error {f : α → Except ε β} {as : List α} {e : ε} :
    as.mapM f = .error e ↔ ∃ before a after, as = before ++ a :: after ∧
      (∀ b ∈ before, ∃ v, f b = .ok v) ∧ f a = .error e := by
  induction as with
  | nil => simp [pure, Except.pure]
  | cons a as ih =>
    simp only [List.mapM_cons, bind_eq_error, ih]
    constructor
    · rintro (ha | ⟨v, hv, ⟨before, x, after, rfl, hbefore, hx⟩ | ⟨vs, -, h⟩⟩)
      · exact ⟨[], a, as, rfl, by simp, ha⟩
      · exact ⟨a :: before, x, after, rfl, List.forall_mem_cons.2 ⟨⟨v, hv⟩, hbefore⟩, hx⟩
      · cases h
    · rintro ⟨before, x, after, hsplit, hbefore, hx⟩
      cases before with
      | nil =>
        cases hsplit
        exact Or.inl hx
      | cons b before =>
        obtain ⟨rfl, rfl⟩ := List.cons.inj hsplit
        obtain ⟨⟨v, hv⟩, hrest⟩ := List.forall_mem_cons.1 hbefore
        exact Or.inr ⟨v, hv, Or.inl ⟨before, x, after, rfl, hrest, hx⟩⟩

end Except

/-! ### Parts of an outcome -/

namespace Action

variable {σ τ ε ε' α β : Type}

/-- The answer of a sequence is that of the second step, unless the first one fails. -/
theorem result_bind (x : Action σ ε α) (f : α → Action σ ε β) (s : σ) :
    ((x >>= f).run s).result =
      (x.run s).result >>= fun a => ((f a).run (x.run s).state).result := by
  cases h : (x.run s).result with
  | ok a => rw [run_bind_of_ok f h]; rfl
  | error e => rw [run_bind_of_error f h]; rfl

lemma state_bind_of_ok {x : Action σ ε α} {s : σ} {a : α} (f : α → Action σ ε β)
    (h : (x.run s).result = .ok a) :
    ((x >>= f).run s).state = ((f a).run (x.run s).state).state := by
  rw [run_bind_of_ok f h]

lemma state_bind_of_error {x : Action σ ε α} {s : σ} {e : ε} (f : α → Action σ ε β)
    (h : (x.run s).result = .error e) : ((x >>= f).run s).state = (x.run s).state := by
  rw [run_bind_of_error f h]

/-- A step that records nothing leaves everything to the next one. -/
lemma run_bind_of_silent {x : Action σ ε α} {s s' : σ} {a : α} (h : x.run s = ⟨.ok a, s', []⟩)
    (f : α → Action σ ε β) : (x >>= f).run s = (f a).run s' := by
  rw [run_bind_of_ok f (congrArg Outcome.result h), h]
  rfl

/-- An answer is put into another form. -/
lemma run_bind_pure (x : Action σ ε α) (g : α → β) (s : σ) :
    (x >>= fun a => pure (g a)).run s =
      ⟨(x.run s).result.map g, (x.run s).state, (x.run s).log⟩ := by
  cases h : (x.run s).result with
  | ok a =>
    rw [run_bind_of_ok _ h, run_pure, List.append_nil]
    rfl
  | error e =>
    rw [run_bind_of_error _ h]
    rfl

lemma run_get_bind (f : σ → Action σ ε α) (s : σ) : (get >>= f).run s = (f s).run s := rfl

@[simp] lemma result_mapError (f : ε → ε') (x : Action σ ε α) (s : σ) :
    ((x.mapError f).run s).result = (x.run s).result.mapError f := rfl

@[simp] lemma result_within (init : τ) (x : Action τ ε α) (s : σ) :
    ((within init x : Action σ ε α).run s).result = (x.run init).result := rfl

/-! ### Failures that change nothing -/

/-- The action never changes the state. -/
def LeavesState (x : Action σ ε α) : Prop := ∀ s, (x.run s).state = s

/-- The action changes the state only if it gives an answer. -/
def FailsCleanly (x : Action σ ε α) : Prop :=
  ∀ s e, (x.run s).result = .error e → (x.run s).state = s

lemma leavesState_ofExcept (x : Except ε α) : (ofExcept x : Action σ ε α).LeavesState :=
  fun _ => rfl

lemma leavesState_pure (a : α) : (pure a : Action σ ε α).LeavesState := fun _ => rfl

lemma leavesState_emit (event : Event) : (emit event : Action σ ε Unit).LeavesState := fun _ => rfl

lemma leavesState_access {x : Access σ α} (h : ∀ s, (x s).2 = s) : (access x).LeavesState := h

lemma LeavesState.bind {x : Action σ ε α} {f : α → Action σ ε β} (hx : x.LeavesState)
    (hf : ∀ a, (f a).LeavesState) : (x >>= f).LeavesState := by
  intro s
  cases h : (x.run s).result with
  | ok a => rw [state_bind_of_ok f h, hf a, hx]
  | error e => rw [state_bind_of_error f h, hx]

lemma leavesState_traced (event : α → Event) (x : Except ε α) :
    (traced event x : Action σ ε α).LeavesState :=
  (leavesState_ofExcept x).bind fun _ => (leavesState_emit _).bind fun _ => leavesState_pure _

lemma LeavesState.mapError {x : Action σ ε α} (hx : x.LeavesState) (f : ε → ε') :
    (x.mapError f).LeavesState := hx

lemma LeavesState.failsCleanly {x : Action σ ε α} (hx : x.LeavesState) : x.FailsCleanly :=
  fun s _ _ => hx s

lemma failsCleanly_access {x : Access σ α} (h : ∀ s e, (x s).1 = .error e → (x s).2 = s) :
    (access x).FailsCleanly := h

lemma FailsCleanly.mapError {x : Action σ ε α} (hx : x.FailsCleanly) (f : ε → ε') :
    (x.mapError f).FailsCleanly := by
  intro s e h
  rw [result_mapError] at h
  cases h' : (x.run s).result with
  | ok a =>
    rw [h'] at h
    cases h
  | error e' => exact hx s e' h'

/-- What fails after steps that change nothing has changed nothing. -/
lemma LeavesState.bind_failsCleanly {x : Action σ ε α} {f : α → Action σ ε β}
    (hx : x.LeavesState) (hf : ∀ a, (f a).FailsCleanly) : (x >>= f).FailsCleanly := by
  intro s e h
  rw [result_bind] at h
  cases h' : (x.run s).result with
  | ok a =>
    rw [h'] at h
    rw [state_bind_of_ok f h', hf a _ e h, hx]
  | error e' => rw [state_bind_of_error f h', hx]

/-- An answer that is only put into another form cannot fail any more. -/
lemma FailsCleanly.bind_pure {x : Action σ ε α} (hx : x.FailsCleanly) (g : α → β) :
    (x >>= fun a => pure (g a)).FailsCleanly := by
  intro s e h
  rw [result_bind] at h
  cases h' : (x.run s).result with
  | ok a => simp [h', bind, Except.bind] at h
  | error e' => rw [state_bind_of_error _ h', hx s e' h']

/-! ### Answers that do not depend on the state -/

/-- In every state of a kind the action answers the same, and it leads to such a state again. -/
def Answers (P : σ → Prop) (x : Action σ ε α) (y : Except ε α) : Prop :=
  ∀ s, P s → (x.run s).result = y ∧ P (x.run s).state

lemma Answers.pure (P : σ → Prop) (a : α) :
    (Pure.pure a : Action σ ε α).Answers P (.ok a) := fun _ hs => ⟨rfl, hs⟩

lemma Answers.bind {P : σ → Prop} {x : Action σ ε α} {y : Except ε α} {f : α → Action σ ε β}
    {g : α → Except ε β} (hx : x.Answers P y) (hf : ∀ a, (f a).Answers P (g a)) :
    (x >>= f).Answers P (y >>= g) := by
  intro s hs
  obtain ⟨hr, hP⟩ := hx s hs
  rw [result_bind, hr]
  cases y with
  | ok a => rw [state_bind_of_ok f hr]; exact hf a _ hP
  | error e => rw [state_bind_of_error f hr]; exact ⟨rfl, hP⟩

/-! ### Runs -/

section Runs

variable {ρ : Type} (f : ρ → Action σ ε α)

lemma runAll_cons (r : ρ) (rs : List ρ) (s : σ) :
    runAll f (r :: rs) s = (f r).run s :: runAll f rs ((f r).run s).state := rfl

lemma stateAfter_cons (r : ρ) (rs : List ρ) (s : σ) :
    stateAfter f (r :: rs) s = stateAfter f rs ((f r).run s).state := rfl

lemma stateAfter_append (rs later : List ρ) (s : σ) :
    stateAfter f (rs ++ later) s = stateAfter f later (stateAfter f rs s) := List.foldl_append

/-- Every action of a run works on what the actions before it left. -/
theorem getElem?_runAll (rs : List ρ) (s : σ) (i : Nat) :
    (runAll f rs s)[i]? = rs[i]?.map fun r => (f r).run (stateAfter f (rs.take i) s) := by
  induction rs generalizing s i with
  | nil => rfl
  | cons r rs ih =>
    cases i with
    | zero => rfl
    | succ i => exact ih _ i

/-- An outcome of a run is that of its action after those before it. -/
lemma exists_of_mem_zip_runAll {f : ρ → Action σ ε α} {rs : List ρ} {s : σ} {r : ρ}
    {o : Outcome σ ε α} (h : (r, o) ∈ rs.zip (runAll f rs s)) :
    ∃ before : List ρ, o = (f r).run (stateAfter f before s) := by
  obtain ⟨i, hi⟩ := List.mem_iff_getElem?.1 h
  obtain ⟨hr, ho⟩ := List.getElem?_zip_eq_some.1 hi
  rw [getElem?_runAll, hr] at ho
  exact ⟨rs.take i, (Option.some.inj ho).symm⟩

end Runs

end Action

/-! ### One action for each width -/

namespace PerWidth

variable {σ ε α β : Type}

/-- Every width gives its answer. -/
theorem ofFnM_eq_ok {f : Width → Except ε α} {p : PerWidth α} :
    ofFnM f = .ok p ↔ ∀ w, f w = .ok (p.get w) := by
  unfold ofFnM
  simp only [Except.bind_eq_ok]
  constructor
  · rintro ⟨a, h8, b, h16, c, h32, d, h64, h⟩ w
    cases h
    cases w <;> assumption
  · intro h
    exact ⟨_, h .w8, _, h .w16, _, h .w32, _, h .w64, rfl⟩

/-- The smallest width that fails gives the failure. -/
theorem ofFnM_eq_error {f : Width → Except ε α} {e : ε} :
    ofFnM f = .error e ↔ ∃ w, f w = .error e ∧ ∀ v, v.bits < w.bits → ∃ a, f v = .ok a := by
  unfold ofFnM
  simp only [Except.bind_eq_error]
  constructor
  · rintro (h | ⟨a, h8, h | ⟨b, h16, h | ⟨c, h32, h | ⟨d, h64, h⟩⟩⟩⟩)
    · exact ⟨.w8, h, fun v hv => by cases v <;> simp [Width.bits] at hv⟩
    · refine ⟨.w16, h, fun v hv => ?_⟩
      cases v <;> simp_all [Width.bits]
    · refine ⟨.w32, h, fun v hv => ?_⟩
      cases v <;> simp_all [Width.bits]
    · refine ⟨.w64, h, fun v hv => ?_⟩
      cases v <;> simp_all [Width.bits]
    · cases h
  · rintro ⟨w, h, hv⟩
    have h8 := hv .w8
    have h16 := hv .w16
    have h32 := hv .w32
    cases w with
    | w8 => exact Or.inl h
    | w16 =>
      obtain ⟨a, h8⟩ := h8 (by decide)
      exact Or.inr ⟨a, h8, Or.inl h⟩
    | w32 =>
      obtain ⟨a, h8⟩ := h8 (by decide)
      obtain ⟨b, h16⟩ := h16 (by decide)
      exact Or.inr ⟨a, h8, Or.inr ⟨b, h16, Or.inl h⟩⟩
    | w64 =>
      obtain ⟨a, h8⟩ := h8 (by decide)
      obtain ⟨b, h16⟩ := h16 (by decide)
      obtain ⟨c, h32⟩ := h32 (by decide)
      exact Or.inr ⟨a, h8, Or.inr ⟨b, h16, Or.inr ⟨c, h32, Or.inl h⟩⟩⟩

lemma ofFnM_mapError {ε' : Type} (f : Width → Except ε α) (g : ε → ε') :
    (ofFnM f).mapError g = ofFnM fun w => (f w).mapError g := by
  cases h : ofFnM f with
  | ok p =>
    have h := ofFnM_eq_ok.1 h
    exact (ofFnM_eq_ok.2 fun w => by rw [h w]; rfl).symm
  | error e =>
    obtain ⟨w, hw, hv⟩ := ofFnM_eq_error.1 h
    refine (ofFnM_eq_error.2 ⟨w, by rw [hw]; rfl, fun v hlt => ?_⟩).symm
    obtain ⟨a, ha⟩ := hv v hlt
    exact ⟨a, by rw [ha]; rfl⟩

/-- If a second pass over the widths cannot fail, it can be joined to the first. -/
theorem ofFnM_bind_ofFnM {f : Width → Except ε α} {g : Width → α → Except ε β}
    (hg : ∀ w a, f w = .ok a → ∃ b, g w a = .ok b) :
    (ofFnM f >>= fun p => ofFnM fun w => g w (p.get w)) = ofFnM fun w => f w >>= g w := by
  cases h : ofFnM f with
  | ok p =>
    have h := ofFnM_eq_ok.1 h
    simp only [h]
    rfl
  | error e =>
    obtain ⟨w, hw, hv⟩ := ofFnM_eq_error.1 h
    refine (ofFnM_eq_error.2 ⟨w, ?_, fun v hlt => ?_⟩).symm
    · rw [hw]
      rfl
    · obtain ⟨a, ha⟩ := hv v hlt
      rw [ha]
      exact hg v a ha

/-- Actions that answer alike wherever they lead to answer alike in turn. -/
theorem answers_ofFnM {P : σ → Prop} {f : Width → Action σ ε α} {g : Width → Except ε α}
    (h : ∀ w, (f w).Answers P (g w)) : (ofFnM f).Answers P (ofFnM g) :=
  (h .w8).bind fun _ => (h .w16).bind fun _ => (h .w32).bind fun _ => (h .w64).bind fun _ =>
    Action.Answers.pure P _

end PerWidth

end FixedInt
