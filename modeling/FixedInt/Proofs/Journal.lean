import FixedInt.Proofs.Loading
import FixedInt.Session

/-!
Journals. A memory with a journal notes every region that it makes and every store that it grants,
and nothing else changes a byte. So after any run each byte of a memory is the one that was put
there last, or still zero, and loads give the numbers of these bytes.
-/

namespace FixedInt

/-! ### What changes a memory -/

/-- A new region, or a store that was granted, of the low bytes of a word. -/
inductive Change where
  | region (size : UInt64)
  | put (address : Address) (width : Width) (bits : UInt64)
  deriving DecidableEq

namespace Change

/-- The size of the new region. -/
def size? : Change → Option Nat
  | region size => some size.toNat
  | put .. => none

/-- The byte that a store puts at index `i` of region `k`. -/
def byte? (k i : Nat) : Change → Option UInt8
  | region _ => none
  | put a w b =>
    if k = a.region.toNat ∧ a.offset.toNat ≤ i ∧ i < a.offset.toNat + w.bytes then
      some (LittleEndian.byteOf b.toNat (i - a.offset.toNat))
    else none

end Change

/-- Changes in the order in which they were made. -/
abbrev Journal := List Change

namespace Journal

/-- The byte that was put last at index `i` of region `k`. -/
def lastByte? (j : Journal) (k i : Nat) : Option UInt8 := (j.filterMap (Change.byte? k i)).getLast?

lemma lastByte?_cons (c : Change) (j : Journal) (k i : Nat) :
    lastByte? (c :: j) k i = (lastByte? j k i).or (c.byte? k i) := by
  unfold lastByte?
  rw [List.filterMap_cons]
  cases hc : c.byte? k i with
  | none => simp
  | some b => rw [List.getLast?_cons]; cases (j.filterMap (Change.byte? k i)).getLast? <;> rfl

lemma lastByte?_eq_none {j : Journal} {k i : Nat} (h : ∀ c ∈ j, c.byte? k i = none) :
    j.lastByte? k i = none := by
  rw [lastByte?, List.filterMap_eq_nil_iff.2 h]
  rfl

end Journal

/-- The changes, made on the first memory one after another, lead to the second one. Each store is
made where there is room for it. -/
inductive Replays : ByteMemory → Journal → ByteMemory → Prop where
  | done (m : ByteMemory) : Replays m [] m
  | region {m m' : ByteMemory} {size : UInt64} {j : Journal}
      (rest : Replays (m.allocate size).2 j m') : Replays m (.region size :: j) m'
  | put {m m' : ByteMemory} {a : Address} {w : Width} {b : UInt64} {j : Journal}
      (h : m.Fits a w.bytes)
      (rest : Replays (m.store a (LittleEndian.toBytes w.bytes b.toNat)) j m') :
      Replays m (.put a w b :: j) m'

namespace ByteMemory

lemma sizes_allocate (size : UInt64) (m : ByteMemory) :
    (m.allocate size).2.sizes = m.sizes ++ [size.toNat] := by
  simp [allocate, sizes, Region.zeros, Region.size]

/-- A new region holds zeros, and the others are as before. -/
lemma byte?_allocate (size : UInt64) (m : ByteMemory) (k i : Nat) :
    ((m.allocate size).2.byte? k i).getD 0 = (m.byte? k i).getD 0 := by
  unfold byte? allocate
  rcases Nat.lt_trichotomy k m.regions.length with h | h | h
  · rw [List.getElem?_append_left h]
  · subst h
    simp only [List.getElem?_concat_length, List.getElem?_eq_none le_rfl, Option.bind_some,
      Region.zeros, List.getElem?_replicate]
    split <;> rfl
  · have hnew : (m.regions ++ [Region.zeros size])[k]? = none :=
      List.getElem?_eq_none (by simp; omega)
    rw [hnew, List.getElem?_eq_none (by omega)]

/-- A store that has room puts its bytes over the old ones. -/
lemma byte?_put {m : ByteMemory} {a : Address} {w : Width} (h : m.Fits a w.bytes) (b : UInt64)
    (k i : Nat) :
    (m.store a (LittleEndian.toBytes w.bytes b.toNat)).byte? k i =
      ((Change.put a w b).byte? k i).or (m.byte? k i) := by
  rw [byte?_store (by rwa [LittleEndian.length_toBytes]), LittleEndian.length_toBytes,
    LittleEndian.getElem?_toBytes, Change.byte?]
  split_ifs with hc hj
  · rfl
  · omega
  · rfl

end ByteMemory

namespace Replays

variable {m m' m'' : ByteMemory} {j j' : Journal}

theorem trans (h : Replays m j m') (h' : Replays m' j' m'') : Replays m (j ++ j') m'' := by
  induction h with
  | done m => exact h'
  | region rest ih => exact region (ih h')
  | put h rest ih => exact put h (ih h')

/-- The regions are the old ones and those of the journal; none ever gets another size. -/
theorem sizes_eq (h : Replays m j m') : m'.sizes = m.sizes ++ j.filterMap Change.size? := by
  induction h with
  | done m => simp
  | region rest ih =>
    rw [ih, ByteMemory.sizes_allocate, List.append_assoc]
    rfl
  | put h rest ih =>
    rw [ih, ByteMemory.sizes_store]
    rfl

lemma sizes_le (h : Replays m j m') : m.sizes <+: m'.sizes := ⟨_, h.sizes_eq.symm⟩

/-- **Every byte is the one that was put there last**; where nothing was put, it is the old one, and
in a new region zero. -/
theorem byte?_eq (h : Replays m j m') {k i : Nat} (hi : m'.HasByte k i) :
    m'.byte? k i = some ((j.lastByte? k i).getD ((m.byte? k i).getD 0)) := by
  induction h with
  | done m =>
    obtain ⟨b, hb⟩ := ByteMemory.exists_byte?_iff.2 hi
    simp [hb, Journal.lastByte?]
  | @region m m' size j rest ih =>
    rw [ih hi, ByteMemory.byte?_allocate, Journal.lastByte?_cons, Change.byte?, Option.or_none]
  | @put m m' a w b j h rest ih =>
    rw [ih hi, ByteMemory.byte?_put h, Journal.lastByte?_cons, Option.getD_or, Option.getD_or]

end Replays

/-! ### Memories of a journal -/

/-- The memory is the history of its journal. It has the regions of the journal, and each byte is
the one that was put there last, or zero. An access is granted exactly where there is room for it,
and then a load gives the number of the bytes it covers; where there is none, a load and a store
are refused alike, and nothing changes. -/
structure ByteMemory.IsHistory (m : ByteMemory) (j : Journal) : Prop where
  sizes : m.sizes = j.filterMap Change.size?
  byte : ∀ k i, m.HasByte k i → m.byte? k i = some ((j.lastByte? k i).getD 0)
  granted : ∀ a off w, m.Fits (a.withOffset off) w.bytes →
    (∀ b, (write a off w b m).1 = .ok ()) ∧
      ∃ v, read a off w m = (.ok v, m) ∧ v.toNat < 2 ^ w.bits ∧
        v.toNat = ∑ i ∈ Finset.range w.bytes,
          ((j.lastByte? a.region.toNat ((a.offset.toNat + off) % 2 ^ 64 + i)).getD 0).toNat *
            256 ^ i
  refused : ∀ a off w, ¬ m.Fits (a.withOffset off) w.bytes →
    read a off w m = (.error (m.refusal (a.withOffset off) w.bytes), m) ∧
      ∀ b, write a off w b m = (.error (m.refusal (a.withOffset off) w.bytes), m)

lemma Address.toNat_offset_withOffset (a : Address) (off : Nat) :
    (a.withOffset off).offset.toNat = (a.offset.toNat + off) % 2 ^ 64 := by
  rw [withOffset, UInt64.toNat_add, UInt64.toNat_ofNat', Nat.add_mod_mod]

/-- A memory that was empty is the history of what changed it. -/
theorem Replays.isHistory {m : ByteMemory} {j : Journal} (h : Replays .empty j m) :
    m.IsHistory j where
  sizes := h.sizes_eq
  byte k i hi := h.byte?_eq hi
  granted a off w hf := by
    refine ⟨fun b => by rw [ByteMemory.write_of_fits hf], _, ByteMemory.read_of_fits hf, ?_⟩
    obtain ⟨hnat, hlt⟩ := ByteMemory.toNat_ofNat_ofBytes (w := w)
      (m.length_bytesAt (a.withOffset off) w.bytes)
    rw [hnat]
    refine ⟨hlt, ?_⟩
    rw [LittleEndian.ofBytes_eq_sum, ByteMemory.length_bytesAt]
    refine Finset.sum_congr rfl fun i hi => ?_
    have hi := Finset.mem_range.1 hi
    have hbyte : m.HasByte a.region.toNat ((a.withOffset off).offset.toNat + i) := by
      obtain ⟨size, hsize, hle⟩ := hf
      exact ⟨size, hsize, by omega⟩
    rw [ByteMemory.getD_bytesAt hi, Address.region_withOffset, h.byte?_eq hbyte,
      Address.toNat_offset_withOffset]
    rfl
  refused a off w hf :=
    ⟨ByteMemory.read_of_not_fits hf, fun b => ByteMemory.write_of_not_fits hf b⟩

/-! ### Keeping a journal -/

/-- A memory and its journal. -/
structure Journaled (σ : Type) where
  memory : σ
  journal : Journal

namespace Journaled

variable {σ : Type}

/-- Makes the access on the memory inside and notes the change if there is an answer. -/
def noting {α : Type} (change : Option Change) (access : Access σ α) : Access (Journaled σ) α :=
  fun t =>
    let (answer, memory) := access t.memory
    (answer, ⟨memory, t.journal ++ if answer.isOk then change.toList else []⟩)

instance [Memory σ] : Memory (Journaled σ) where
  write a off w b := noting (some (.put (a.withOffset off) w b)) (Memory.write a off w b)
  read a off w := noting none (Memory.read a off w)
  check a n := noting none (Memory.check a n)

instance [Arena σ] : Arena (Journaled σ) where
  empty := ⟨Arena.empty, []⟩
  allocate size t :=
    let (address, memory) := Arena.allocate size t.memory
    (address, ⟨memory, t.journal ++ [.region size]⟩)
  contents t := Arena.contents t.memory

end Journaled

/-- On a memory with a journal the first action comes to what the second one comes to on the memory
alone, and what it adds to the journal accounts for all that it changes. -/
def Action.Journals {ε α : Type} (x : Action (Journaled ByteMemory) ε α)
    (y : Action ByteMemory ε α) : Prop :=
  ∀ m, ∃ added, Replays m added (y.run m).state ∧
    ∀ j, x.run ⟨m, j⟩ = ⟨(y.run m).result, ⟨(y.run m).state, j ++ added⟩, (y.run m).log⟩

namespace Action

variable {ε ε' α β : Type}

lemma journals_ofExcept (x : Except ε α) :
    (ofExcept x : Action (Journaled ByteMemory) ε α).Journals (ofExcept x) :=
  fun m => ⟨[], .done m, fun j => by simp⟩

lemma journals_emit (event : Event) :
    (emit event : Action (Journaled ByteMemory) ε Unit).Journals (emit event) :=
  fun m => ⟨[], .done m, fun j => by simp⟩

lemma Journals.bind {x : Action (Journaled ByteMemory) ε α} {y : Action ByteMemory ε α}
    {f : α → Action (Journaled ByteMemory) ε β} {g : α → Action ByteMemory ε β}
    (hx : x.Journals y) (hf : ∀ a, (f a).Journals (g a)) : (x >>= f).Journals (y >>= g) := by
  intro m
  obtain ⟨added, hm, hrun⟩ := hx m
  cases hr : (y.run m).result with
  | ok a =>
    obtain ⟨more, hm', hrun'⟩ := hf a (y.run m).state
    have hy := run_bind_of_ok g hr
    refine ⟨added ++ more, ?_, fun j => ?_⟩
    · rw [hy]
      exact hm.trans hm'
    · have hxr : (x.run ⟨m, j⟩).result = .ok a := by rw [hrun, hr]
      rw [hy, run_bind_of_ok f hxr, hrun, hrun', List.append_assoc]
  | error err =>
    have hy := run_bind_of_error g hr
    refine ⟨added, ?_, fun j => ?_⟩
    · rw [hy]
      exact hm
    · have hxr : (x.run ⟨m, j⟩).result = .error err := by rw [hrun, hr]
      rw [hy, run_bind_of_error f hxr, hrun]

lemma Journals.mapError {x : Action (Journaled ByteMemory) ε α} {y : Action ByteMemory ε α}
    (hx : x.Journals y) (f : ε → ε') : (x.mapError f).Journals (y.mapError f) := by
  intro m
  obtain ⟨added, hm, hrun⟩ := hx m
  refine ⟨added, hm, fun j => ?_⟩
  change Outcome.mk ((x.run ⟨m, j⟩).result.mapError f) (x.run ⟨m, j⟩).state (x.run ⟨m, j⟩).log = _
  rw [hrun]
  rfl

lemma journals_pure (a : α) :
    (pure a : Action (Journaled ByteMemory) ε α).Journals (pure a) :=
  journals_ofExcept (.ok a)

lemma journals_traced (event : α → Event) (x : Except ε α) :
    (traced event x : Action (Journaled ByteMemory) ε α).Journals (traced event x) :=
  (journals_ofExcept x).bind fun a => (journals_emit _).bind fun _ => journals_pure a

/-- What an access notes has to account for what it changes. -/
lemma journals_noting {y : Access ByteMemory α} {c : Option Change}
    (h : ∀ m, Replays m (if (y m).1.isOk then c.toList else []) (y m).2) :
    (access (Journaled.noting c y)).Journals (access y) :=
  fun m => ⟨_, h m, fun _ => rfl⟩

lemma journals_noting_none {y : Access ByteMemory α} (h : ∀ m, (y m).2 = m) :
    (access (Journaled.noting none y)).Journals (access y) := by
  refine journals_noting fun m => ?_
  rw [h m, Option.toList_none, ite_self]
  exact .done m

lemma journals_read (a : Address) (off : Nat) (w : Width) :
    (access (Memory.read a off w) : Action (Journaled ByteMemory) MemoryError UInt64).Journals
      (access (Memory.read a off w)) :=
  journals_noting_none (ByteMemory.snd_read a off w)

lemma journals_check (a : Address) (n : Nat) :
    (access (Memory.check a n) : Action (Journaled ByteMemory) MemoryError Unit).Journals
      (access (Memory.check a n)) :=
  journals_noting_none (ByteMemory.snd_check a n)

/-- A store is noted exactly if it is granted. -/
lemma journals_write (a : Address) (off : Nat) (w : Width) (b : UInt64) :
    (access (Memory.write a off w b) : Action (Journaled ByteMemory) MemoryError Unit).Journals
      (access (Memory.write a off w b)) := by
  refine journals_noting fun m => ?_
  change Replays m (if (ByteMemory.write a off w b m).1.isOk then _ else _)
    (ByteMemory.write a off w b m).2
  by_cases h : m.Fits (a.withOffset off) w.bytes
  · rw [ByteMemory.write_of_fits h]
    exact .put h (.done _)
  · rw [ByteMemory.write_of_not_fits h]
    exact .done m

end Action

/-! ### Steps of a session -/

lemma Plan.journals_traceArith (plan : Plan) (left right : Scalar) :
    (plan.traceArith left right : Action (Journaled ByteMemory) EvalError CheckedResult).Journals
      (plan.traceArith left right) := by
  cases plan with
  | arith op w => exact Action.journals_traced _ _
  | compare p w n => exact Action.journals_ofExcept _

lemma Plan.journals_traceCompare (plan : Plan) (left right : LaneVector) :
    (plan.traceCompare left right : Action (Journaled ByteMemory) EvalError (List Bool)).Journals
      (plan.traceCompare left right) := by
  cases plan with
  | arith op w => exact Action.journals_ofExcept _
  | compare p w n => exact Action.journals_traced _ _

lemma ResultSlots.journals_store (slots : ResultSlots) (dest : Address) (r : CheckedResult) :
    (slots.store dest r : Action (Journaled ByteMemory) EvalError Unit).Journals
      (slots.store dest r) := by
  unfold store
  split
  · refine ((Action.journals_check _ _).mapError _).bind fun _ => ?_
    refine ((Action.journals_write _ _ _ _).mapError _).bind fun _ => ?_
    exact (Action.journals_write _ _ _ _).mapError _
  · exact Action.journals_ofExcept _

lemma ResultSlots.journals_load (slots : ResultSlots) (dest : Address) :
    (slots.load dest : Action (Journaled ByteMemory) EvalError CheckedResult).Journals
      (slots.load dest) := by
  refine ((Action.journals_read _ _ _).mapError _).bind fun bits => ?_
  exact ((Action.journals_read _ _ _).mapError _).bind fun flag => Action.journals_pure _

namespace Evaluator

variable (e : Evaluator)

lemma journals_arith (op : ArithOp) (w : Width) (left right : Scalar) (dest : Address) :
    (e.arith op w left right dest : Action (Journaled ByteMemory) EvalError Address).Journals
      (e.arith op w left right dest) := by
  refine (Action.journals_ofExcept _).bind fun plan => ?_
  split
  · refine (plan.journals_traceArith left right).bind fun r => ?_
    exact ((e.slots.get w).journals_store dest r).bind fun _ => Action.journals_pure _
  · exact Action.journals_ofExcept _

lemma journals_compare (p : Predicate) (left right : LaneVector) :
    (e.compare p left right : Action (Journaled ByteMemory) EvalError (List Bool)).Journals
      (e.compare p left right) :=
  (Action.journals_ofExcept _).bind fun plan => plan.journals_traceCompare left right

lemma journals_assume (condition : Bool) :
    (e.assume condition : Action (Journaled ByteMemory) EvalError Unit).Journals
      (e.assume condition) := by
  unfold assume
  split
  · exact Action.journals_emit _
  · exact Action.journals_pure _

lemma journals_apply (i : Intrinsic) (name : String) (values : List Value) :
    (e.apply i name values : Action (Journaled ByteMemory) EvalError Value).Journals
      (e.apply i name values) := by
  unfold apply
  split
  · exact (e.journals_arith _ _ _ _ _).bind fun _ => Action.journals_pure _
  · exact (e.journals_compare _ _ _).bind fun _ => Action.journals_pure _
  · exact (e.journals_assume _).bind fun _ => Action.journals_pure _
  · exact Action.journals_ofExcept _

lemma journals_call {ι : Type} (name : String) (operands : List ι)
    (read : ι → Except EvalError Value) :
    (e.call name operands read : Action (Journaled ByteMemory) EvalError Value).Journals
      (e.call name operands read) := by
  refine (Action.journals_ofExcept _).bind fun i => ?_
  split
  · exact (Action.journals_ofExcept _).bind fun values => e.journals_apply i name values
  · exact Action.journals_ofExcept _

end Evaluator

namespace Step

lemma state_ofAccess {σ α : Type} (answer : α → Answer) (x : Access σ α) (m : σ) :
    ((ofAccess answer x).run m).state = (x m).2 := by
  rw [ofAccess, Action.run_bind_pure]
  rfl

lemma journals_ofAccess {α : Type} {x : Access (Journaled ByteMemory) α} {y : Access ByteMemory α}
    (h : (Action.access x).Journals (Action.access y)) (answer : α → Answer) :
    (ofAccess answer x).Journals (ofAccess answer y) :=
  (h.mapError _).bind fun _ => Action.journals_pure _

lemma journals_ofEval {α : Type} {x : Action (Journaled ByteMemory) EvalError α}
    {y : Action ByteMemory EvalError α} (h : x.Journals y) (answer : α → Answer) :
    (ofEval answer x).Journals (ofEval answer y) :=
  (h.mapError _).bind fun _ => Action.journals_pure _

/-- **No step changes a byte without a store that is noted.** -/
theorem journals_run (e : Evaluator) (s : Step) :
    (s.run e : Action (Journaled ByteMemory) Fault Answer).Journals (s.run e) := by
  cases s with
  | allocate size =>
    refine journals_ofAccess (fun m => ⟨[.region size], ?_, fun j => rfl⟩) _
    exact .region (.done _)
  | bytes region =>
    refine journals_ofAccess ?_ _
    intro m
    refine ⟨[], .done m, fun j => ?_⟩
    rw [List.append_nil]
    rfl
  | offset address n => exact Action.journals_pure _
  | slots w => exact Action.journals_pure _
  | write address off w b => exact journals_ofAccess (Action.journals_write address off w b) _
  | read address off w => exact journals_ofAccess (Action.journals_read address off w) _
  | check address n => exact journals_ofAccess (Action.journals_check address n) _
  | arith op w left right dest => exact journals_ofEval (e.journals_arith op w left right dest) _
  | compare p left right => exact journals_ofEval (e.journals_compare p left right) _
  | call name operands find => exact journals_ofEval (e.journals_call name operands find) _
  | store spec dest r =>
    refine journals_ofEval ((Action.journals_ofExcept _).bind fun slots => ?_) _
    exact slots.journals_store dest r
  | load spec dest =>
    refine journals_ofEval ((Action.journals_ofExcept _).bind fun slots => ?_) _
    exact slots.journals_load dest

/-! ### Runs -/

/-- The memory after steps, each of them made with an evaluator of its own. -/
def afterEach {σ : Type} [Arena σ] : List (Evaluator × Step) → σ → σ :=
  Action.stateAfter fun s => s.2.run s.1

/-- What steps change in a memory: the regions that they allocate and the stores that are granted to
them, also inside an evaluation, and also if it fails afterwards. -/
def journal (steps : List (Evaluator × Step)) (m : ByteMemory) : Journal :=
  (afterEach steps (⟨m, []⟩ : Journaled ByteMemory)).journal

section Run

variable (steps : List (Evaluator × Step)) (m : ByteMemory)

lemma afterEach_append {σ : Type} [Arena σ] (later : List (Evaluator × Step)) (m : σ) :
    afterEach (steps ++ later) m = afterEach later (afterEach steps m) :=
  Action.stateAfter_append _ steps later m

/-- A run goes the same way whether a journal is kept or not. -/
theorem afterEach_journaled :
    Replays m (journal steps m) (afterEach steps m) ∧
      ∀ j, afterEach steps (⟨m, j⟩ : Journaled ByteMemory) =
        ⟨afterEach steps m, j ++ journal steps m⟩ := by
  induction steps generalizing m with
  | nil => exact ⟨.done m, fun j => by simp [afterEach, journal, Action.stateAfter]⟩
  | cons s steps ih =>
    obtain ⟨added, hm, hrun⟩ := journals_run s.1 s.2 m
    obtain ⟨hrest, hafter⟩ := ih ((s.2.run s.1).run m).state
    have hcons : ∀ j, afterEach (s :: steps) (⟨m, j⟩ : Journaled ByteMemory) =
        ⟨afterEach (s :: steps) m, j ++ (added ++ journal steps ((s.2.run s.1).run m).state)⟩ := by
      intro j
      change afterEach steps ((s.2.run s.1).run (⟨m, j⟩ : Journaled ByteMemory)).state = _
      rw [hrun, hafter, List.append_assoc]
      rfl
    have hj : journal (s :: steps) m = added ++ journal steps ((s.2.run s.1).run m).state :=
      congrArg Journaled.journal (hcons [])
    rw [hj]
    exact ⟨hm.trans hrest, hcons⟩

lemma journal_append (later : List (Evaluator × Step)) :
    journal (steps ++ later) m = journal steps m ++ journal later (afterEach steps m) := by
  rw [journal, afterEach_append, (afterEach_journaled steps m).2 [],
    (afterEach_journaled later (afterEach steps m)).2]
  rfl

lemma journal_allocate (e : Evaluator) (size : UInt64) :
    journal [(e, .allocate size)] m = [.region size] := rfl

lemma journal_write (e : Evaluator) (a : Address) (off : Nat) (w : Width) (b : UInt64) :
    journal [(e, .write a off w b)] m =
      if (ByteMemory.write a off w b m).1 = .ok () then [.put (a.withOffset off) w b] else [] := by
  have hstate := state_ofAccess (fun _ => Answer.done)
    (Memory.write a off w b : Access (Journaled ByteMemory) Unit) ⟨m, []⟩
  refine (congrArg Journaled.journal hstate).trans ?_
  change (if (ByteMemory.write a off w b m).1.isOk then
    [Change.put (a.withOffset off) w b] else []) = _
  by_cases h : m.Fits (a.withOffset off) w.bytes
  · rw [ByteMemory.write_of_fits h]
    rfl
  · rw [ByteMemory.write_of_not_fits h]
    rfl

end Run

/-- **A memory is the history of the last stores.** Whatever steps ran on a memory that was empty,
it is the history of its journal, in which each allocation and each store that was granted follow
one another, a store at the offset that it comes to modulo `2 ^ 64`. The next region gets the next
handle, and no region ever changes its size. -/
theorem isHistory_of_run (steps : List (Evaluator × Step)) :
    let m : ByteMemory := afterEach steps .empty
    let j := journal steps .empty
    m.IsHistory j ∧ journal [] .empty = [] ∧
      (∀ e size, journal (steps ++ [(e, .allocate size)]) .empty = j ++ [.region size]) ∧
      (∀ e a off w b, journal (steps ++ [(e, .write a off w b)]) .empty =
        j ++ if (ByteMemory.write a off w b m).1 = .ok () then
          [.put (a.withOffset off) w b] else []) ∧
      (∀ a off, (Address.withOffset a off).offset.toNat = (a.offset.toNat + off) % 2 ^ 64) ∧
      (∀ size, m.sizes.length < 2 ^ 32 →
        (m.allocate size).1.region.toNat = m.sizes.length ∧ (m.allocate size).1.offset = 0) ∧
      ∀ later, m.sizes <+: (afterEach later m).sizes := by
  refine ⟨(afterEach_journaled steps .empty).1.isHistory, rfl, fun e size => ?_,
    fun e a off w b => ?_, Address.toNat_offset_withOffset, fun size hlt => ⟨?_, rfl⟩,
    fun later => ?_⟩
  · rw [journal_append, journal_allocate]
  · rw [journal_append, journal_write]
  · rw [ByteMemory.sizes, List.length_map] at hlt ⊢
    exact Nat.mod_eq_of_lt hlt
  · exact (afterEach_journaled later _).1.sizes_le

/-- A store of four bytes, the offset of which wraps, and one of two bytes in the middle of them. -/
def overlapping : List (Evaluator × Step) :=
  [(.plain, .allocate 8), (.plain, .write ⟨0, 0xffffffffffffffff⟩ 3 .w32 0x44332211),
    (.plain, .write ⟨0, 0⟩ 3 .w16 0xbbaa)]

example : (ByteMemory.read ⟨0, 0⟩ 2 .w32 (afterEach overlapping .empty)).1 = .ok 0x44bbaa11 := by
  rfl

end Step

end FixedInt
