import FixedInt.Event
import FixedInt.Memory.Basic

/-!
Actions: computations that may fail, change a state and record events. A failure keeps the state
and the records made before it.
-/

namespace FixedInt

/-- What running an action comes to. -/
structure Outcome (σ ε α : Type) where
  result : Except ε α
  state : σ
  /-- The events in the order in which they happened. -/
  log : List Event

/-- A computation over a state that may fail and that records events. -/
def Action (σ ε α : Type) : Type := σ → Outcome σ ε α

namespace Action

variable {σ τ ε ε' α β : Type}

def run (x : Action σ ε α) (s : σ) : Outcome σ ε α := x s

/-! ### Sequences -/

/-- Gives an answer and does nothing. -/
def ret (a : α) : Action σ ε α := fun s => ⟨.ok a, s, []⟩

/-- Runs one action after another. If the first fails, the second does not run. -/
def andThen (x : Action σ ε α) (f : α → Action σ ε β) : Action σ ε β := fun s =>
  match x s with
  | ⟨.ok a, s, log⟩ =>
    let next := f a s
    { next with log := log ++ next.log }
  | ⟨.error e, s, log⟩ => ⟨.error e, s, log⟩

instance : Monad (Action σ ε) where
  pure := ret
  bind := andThen

/-! ### Single steps -/

/-- Takes over an answer or a failure. -/
def ofExcept (x : Except ε α) : Action σ ε α := fun s => ⟨x, s, []⟩

def fail (e : ε) : Action σ ε α := ofExcept (.error e)

def emit (event : Event) : Action σ ε Unit := fun s => ⟨.ok (), s, [event]⟩

def get : Action σ ε σ := fun s => ⟨.ok s, s, []⟩

def modify (f : σ → σ) : Action σ ε Unit := fun s => ⟨.ok (), f s, []⟩

def access (x : Access σ α) : Action σ MemoryError α := fun m =>
  let (answer, m) := x m
  ⟨answer, m, []⟩

/-! ### Actions from actions -/

/-- Takes over an answer or a failure and records the event of an answer. -/
def traced (event : α → Event) (x : Except ε α) : Action σ ε α := do
  let a ← ofExcept x
  emit (event a)
  return a

def mapError (f : ε → ε') (x : Action σ ε α) : Action σ ε' α := fun s =>
  let o := x s
  ⟨o.result.mapError f, o.state, o.log⟩

/-- Runs an action on a state of its own, which is dropped afterwards. -/
def within (init : τ) (x : Action τ ε α) : Action σ ε α := fun s =>
  let o := x init
  ⟨o.result, s, o.log⟩

/-! ### Actions one after another -/

section Runs

variable {ρ : Type} (f : ρ → Action σ ε α)

/-- Runs the actions of a list, each on the state that the ones before it left. A failure ends
nothing; the next action runs on the state as it was left. -/
def runAll : List ρ → σ → List (Outcome σ ε α)
  | [], _ => []
  | r :: rs, s =>
    let o := (f r).run s
    o :: runAll rs o.state

/-- The state after the actions of a list. -/
def stateAfter (rs : List ρ) (s : σ) : σ := rs.foldl (fun s r => ((f r).run s).state) s

end Runs

/-! ### What running comes to -/

@[simp] theorem run_pure (a : α) (s : σ) : (pure a : Action σ ε α).run s = ⟨.ok a, s, []⟩ := rfl

@[simp] theorem run_ofExcept (x : Except ε α) (s : σ) :
    (ofExcept x : Action σ ε α).run s = ⟨x, s, []⟩ := rfl

@[simp] theorem run_fail (e : ε) (s : σ) :
    (fail e : Action σ ε α).run s = ⟨.error e, s, []⟩ := rfl

@[simp] theorem run_emit (event : Event) (s : σ) :
    (emit event : Action σ ε Unit).run s = ⟨.ok (), s, [event]⟩ := rfl

/-- The second action runs on what the first one left, and its records follow. -/
theorem run_bind_of_ok {x : Action σ ε α} {s : σ} {a : α} (f : α → Action σ ε β)
    (h : (x.run s).result = .ok a) :
    (x >>= f).run s =
      { (f a).run (x.run s).state with
        log := (x.run s).log ++ ((f a).run (x.run s).state).log } := by
  change andThen x f s = _
  unfold run at h ⊢
  unfold andThen
  split
  · next hx => simp_all
  · next hx => simp_all

/-- A failure ends the sequence. -/
theorem run_bind_of_error {x : Action σ ε α} {s : σ} {e : ε} (f : α → Action σ ε β)
    (h : (x.run s).result = .error e) :
    (x >>= f).run s = ⟨.error e, (x.run s).state, (x.run s).log⟩ := by
  change andThen x f s = _
  unfold run at h ⊢
  unfold andThen
  split
  · next hx => simp_all
  · next hx => simp_all

end Action

end FixedInt
