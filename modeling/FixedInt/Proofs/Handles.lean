import FixedInt.Proofs.Calls
import FixedInt.Proofs.Journal

/-!
Handles of regions. A memory makes a region only when it is asked for one, and the handle of the
region is the number of those before it, in 32 bits. So each new region has a handle of its own as
long as there are handles; the one after that gets the handle of the first region again, and its own
bytes have no address.
-/

namespace FixedInt

/-! ### What makes a region -/

/-- The action makes no region, and no region gets another size. -/
def Action.KeepsSizes {ε α : Type} (x : Action ByteMemory ε α) : Prop :=
  ∀ m, (x.run m).state.sizes = m.sizes

namespace Action

variable {ε ε' α β : Type}

lemma LeavesState.keepsSizes {x : Action ByteMemory ε α} (hx : x.LeavesState) : x.KeepsSizes :=
  fun m => congrArg ByteMemory.sizes (hx m)

lemma KeepsSizes.bind {x : Action ByteMemory ε α} {f : α → Action ByteMemory ε β}
    (hx : x.KeepsSizes) (hf : ∀ a, (f a).KeepsSizes) : (x >>= f).KeepsSizes := by
  intro m
  cases h : (x.run m).result with
  | ok a => rw [state_bind_of_ok f h, hf a, hx]
  | error e => rw [state_bind_of_error f h, hx]

lemma KeepsSizes.mapError {x : Action ByteMemory ε α} (hx : x.KeepsSizes) (f : ε → ε') :
    (x.mapError f).KeepsSizes := hx

lemma keepsSizes_write (a : Address) (off : Nat) (w : Width) (b : UInt64) :
    (access (Memory.write a off w b) : Action ByteMemory MemoryError Unit).KeepsSizes := by
  intro m
  change (ByteMemory.write a off w b m).2.sizes = m.sizes
  by_cases h : m.Fits (a.withOffset off) w.bytes
  · rw [ByteMemory.write_of_fits h, ByteMemory.sizes_store]
  · rw [ByteMemory.write_of_not_fits h]

end Action

lemma ResultSlots.keepsSizes_store (slots : ResultSlots) (dest : Address) (r : CheckedResult) :
    (slots.store dest r : Action ByteMemory EvalError Unit).KeepsSizes := by
  unfold store
  split
  · have hcheck := Action.leavesState_access (ByteMemory.snd_check dest slots.extent)
    refine (hcheck.keepsSizes.mapError _).bind fun _ => ?_
    refine ((Action.keepsSizes_write _ _ _ _).mapError _).bind fun _ => ?_
    exact (Action.keepsSizes_write _ _ _ _).mapError _
  · exact (Action.leavesState_ofExcept _).keepsSizes

namespace Evaluator

variable (e : Evaluator)

lemma keepsSizes_arith (op : ArithOp) (w : Width) (left right : Scalar) (dest : Address) :
    (e.arith op w left right dest : Action ByteMemory EvalError Address).KeepsSizes := by
  refine (Action.leavesState_ofExcept _).keepsSizes.bind fun plan => ?_
  split
  · refine (plan.leavesState_traceArith left right).keepsSizes.bind fun r => ?_
    exact ((e.slots.get w).keepsSizes_store dest r).bind fun _ =>
      (Action.leavesState_pure _).keepsSizes
  · exact (Action.leavesState_ofExcept _).keepsSizes

lemma keepsSizes_call {ι : Type} (name : String) (operands : List ι)
    (read : ι → Except EvalError Value) :
    (e.call name operands read : Action ByteMemory EvalError Value).KeepsSizes := by
  by_cases h : ∃ op w left right dest, ArithCall name operands read op w left right dest
  · obtain ⟨op, w, left, right, dest, h⟩ := h
    intro m
    rw [run_call_of_arith h]
    exact e.keepsSizes_arith op w left right dest m
  · refine (leavesState_call fun op w left right dest hcall => h ?_).keepsSizes
    exact ⟨op, w, left, right, dest, hcall⟩

end Evaluator

namespace Step

/-- The size of the region that a step makes. -/
def newSize? : Step → Option Nat
  | allocate size => some size.toNat
  | _ => none

lemma exists_allocate_of_newSize? {s : Step} {n : Nat} (h : s.newSize? = some n) :
    ∃ size, s = .allocate size := by
  cases s with
  | allocate size => exact ⟨size, rfl⟩
  | _ => cases h

lemma keepsSizes_ofEval {α : Type} {x : Action ByteMemory EvalError α} (hx : x.KeepsSizes)
    (answer : α → Answer) : (ofEval answer x).KeepsSizes :=
  (hx.mapError _).bind fun _ => (Action.leavesState_pure _).keepsSizes

lemma keepsSizes_ofAccess {α : Type} {x : Access ByteMemory α}
    (hx : (Action.access x).KeepsSizes) (answer : α → Answer) : (ofAccess answer x).KeepsSizes :=
  (hx.mapError _).bind fun _ => (Action.leavesState_pure _).keepsSizes

/-- Only a step that asks for a region makes one. -/
lemma keepsSizes_run (e : Evaluator) {s : Step} (h : s.newSize? = none) :
    (s.run e : Action ByteMemory Fault Answer).KeepsSizes := by
  cases s with
  | allocate size => cases h
  | bytes region =>
    exact keepsSizes_ofAccess (Action.leavesState_access fun _ => rfl).keepsSizes _
  | offset address n => exact (Action.leavesState_pure _).keepsSizes
  | slots w => exact (Action.leavesState_pure _).keepsSizes
  | write address off w b => exact keepsSizes_ofAccess (Action.keepsSizes_write address off w b) _
  | read address off w =>
    exact keepsSizes_ofAccess
      (Action.leavesState_access (ByteMemory.snd_read address off w)).keepsSizes _
  | check address n =>
    exact keepsSizes_ofAccess
      (Action.leavesState_access (ByteMemory.snd_check address n)).keepsSizes _
  | arith op w left right dest =>
    exact keepsSizes_ofEval (e.keepsSizes_arith op w left right dest) _
  | compare p left right =>
    exact keepsSizes_ofEval (Evaluator.leavesState_compare p left right).keepsSizes _
  | call name operands find => exact keepsSizes_ofEval (e.keepsSizes_call name operands find) _
  | store spec dest r =>
    refine keepsSizes_ofEval ((Action.leavesState_ofExcept _).keepsSizes.bind fun slots => ?_) _
    exact slots.keepsSizes_store dest r
  | load spec dest =>
    refine keepsSizes_ofEval ((Action.leavesState_ofExcept _).bind fun slots => ?_).keepsSizes _
    exact slots.leavesState_load dest

/-- What a step leaves is what it found and, if it makes a region, that one at the end. -/
theorem sizes_run (e : Evaluator) (s : Step) (m : ByteMemory) :
    ((s.run e).run m).state.sizes = m.sizes ++ s.newSize?.toList := by
  cases h : s.newSize? with
  | none => rw [keepsSizes_run e h m, Option.toList_none, List.append_nil]
  | some n =>
    obtain ⟨size, rfl⟩ := exists_allocate_of_newSize? h
    cases h
    exact ByteMemory.sizes_allocate size m

/-! ### Regions of a run -/

/-- The sizes of the regions that steps make, in order. -/
def newSizes (steps : List (Evaluator × Step)) : List Nat := steps.filterMap fun s => s.2.newSize?

lemma newSizes_cons (e : Evaluator) (s : Step) (steps : List (Evaluator × Step)) :
    newSizes ((e, s) :: steps) = s.newSize?.toList ++ newSizes steps := by
  rw [newSizes, List.filterMap_cons]
  cases s.newSize? <;> rfl

/-- A run leaves the regions that it found and behind them those that it makes. -/
theorem sizes_afterEach (steps : List (Evaluator × Step)) (m : ByteMemory) :
    (afterEach steps m).sizes = m.sizes ++ newSizes steps := by
  induction steps generalizing m with
  | nil => exact (List.append_nil _).symm
  | cons s steps ih =>
    change (afterEach steps ((s.2.run s.1).run m).state).sizes = _
    rw [ih, sizes_run, newSizes_cons, List.append_assoc]

lemma length_regions_of_empty (steps : List (Evaluator × Step)) :
    (afterEach steps ByteMemory.empty).regions.length = (newSizes steps).length := by
  simpa [ByteMemory.sizes, ByteMemory.empty] using
    congrArg List.length (sizes_afterEach steps .empty)

/-- Where a run makes more than `n` regions, there is a step in it that makes one behind `n`. -/
lemma exists_allocate_of_lt {steps : List (Evaluator × Step)} {n : Nat}
    (h : n < (newSizes steps).length) :
    ∃ before e size later, steps = before ++ (e, .allocate size) :: later ∧
      (newSizes before).length = n := by
  have hsizes : newSizes steps =
      (newSizes steps).take n ++ (newSizes steps)[n] :: (newSizes steps).drop (n + 1) := by
    rw [← List.drop_eq_getElem_cons, List.take_append_drop]
  obtain ⟨first, rest, hsteps, hfirst, hrest⟩ := List.filterMap_eq_append_iff.1 hsizes
  obtain ⟨others, ⟨e, s⟩, later, rfl, hothers, hs, -⟩ := List.filterMap_eq_cons_iff.1 hrest
  obtain ⟨size, rfl⟩ := exists_allocate_of_newSize? hs
  refine ⟨first ++ others, e, size, later, by rw [hsteps, List.append_assoc], ?_⟩
  rw [newSizes, List.filterMap_append, hfirst, List.filterMap_eq_nil_iff.2 hothers,
    List.append_nil, List.length_take, Nat.min_eq_left h.le]

end Step

/-! ### Addresses of regions -/

/-- The first address of the region that is made behind `k` others. -/
def Address.afterRegions (k : Nat) : Address := ⟨UInt32.ofNat k, 0⟩

lemma Address.toNat_region_afterRegions (k : Nat) :
    (afterRegions k).region.toNat = k % 2 ^ 32 := UInt32.toNat_ofNat'

namespace ByteMemory

variable {m : ByteMemory}

/-- A new region holds zeros under the number of those before it, and the others are as before. -/
lemma regionBytes?_allocate (size : UInt64) (region : UInt32) :
    (m.allocate size).2.regionBytes? region =
      if region.toNat = m.regions.length then some (List.replicate size.toNat 0)
      else m.regionBytes? region := by
  unfold regionBytes? allocate
  split_ifs with h
  · rw [h, List.getElem?_concat_length]
    rfl
  · rcases Nat.lt_or_gt_of_ne h with hlt | hgt
    · rw [List.getElem?_append_left hlt]
    · have hlength : (m.regions ++ [Region.zeros size]).length ≤ region.toNat := by
        rw [List.length_append, List.length_singleton]
        omega
      rw [List.getElem?_eq_none hlength, List.getElem?_eq_none (by omega)]

/-- In a memory that has given the addresses, a new region is one of its own: its handle is none of
theirs, it holds as many zeros as were asked for, and the regions of theirs hold what they held. -/
structure AllocatesFresh (m : ByteMemory) (given : List Address) (size : UInt64) : Prop where
  distinct : ∀ a ∈ given, a.region ≠ (m.allocate size).1.region
  zeros : (m.allocate size).2.regionBytes? (m.allocate size).1.region =
    some (List.replicate size.toNat 0)
  kept : ∀ a ∈ given, ∃ bytes, m.regionBytes? a.region = some bytes ∧
    (m.allocate size).2.regionBytes? a.region = some bytes

/-- The addresses are those of the regions of a memory, which were made one after another. -/
def Gave (m : ByteMemory) (given : List Address) : Prop :=
  given = (List.range m.regions.length).map Address.afterRegions

namespace Gave

variable {given : List Address}

/-- A new region never changes what is found at an address that was given before. -/
lemma kept (h : m.Gave given) (size : UInt64) :
    ∀ a ∈ given, ∃ bytes, m.regionBytes? a.region = some bytes ∧
      (m.allocate size).2.regionBytes? a.region = some bytes := by
  intro a ha
  rw [h, List.mem_map] at ha
  obtain ⟨k, hk, rfl⟩ := ha
  have hlt : (Address.afterRegions k).region.toNat < m.regions.length := by
    rw [Address.toNat_region_afterRegions]
    exact (Nat.mod_le _ _).trans_lt (List.mem_range.1 hk)
  obtain ⟨bytes, hbytes⟩ : ∃ bytes, m.regionBytes? (Address.afterRegions k).region = some bytes :=
    ⟨_, by rw [regionBytes?, List.getElem?_eq_getElem hlt, Option.map_some]⟩
  rw [regionBytes?_allocate, if_neg hlt.ne]
  exact ⟨bytes, hbytes, hbytes⟩

/-- **A new region is one of its own as long as there are handles.** -/
theorem allocatesFresh_iff (h : m.Gave given) (size : UInt64) :
    m.AllocatesFresh given size ↔ m.regions.length < 2 ^ 32 := by
  constructor
  · intro hfresh
    by_contra hlen
    -- the region gets the handle of the one that as many regions lie behind as there are handles
    have hmem : Address.afterRegions (m.regions.length - 2 ^ 32) ∈ given := by
      rw [h]
      exact List.mem_map_of_mem (List.mem_range.2 (by omega))
    refine hfresh.distinct _ hmem (UInt32.toNat_inj.1 ?_)
    change _ = (Address.afterRegions m.regions.length).region.toNat
    rw [Address.toNat_region_afterRegions, Address.toNat_region_afterRegions]
    omega
  · intro hlen
    have hnew : (m.allocate size).1.region.toNat = m.regions.length := Nat.mod_eq_of_lt hlen
    refine ⟨fun a ha heq => ?_, by rw [regionBytes?_allocate, if_pos hnew], h.kept size⟩
    rw [h, List.mem_map] at ha
    obtain ⟨k, hk, rfl⟩ := ha
    have hk := List.mem_range.1 hk
    have hk' := Address.toNat_region_afterRegions k
    rw [heq, hnew, Nat.mod_eq_of_lt (hk.trans hlen)] at hk'
    omega

end Gave

end ByteMemory

namespace Step

/-- The address that a step gives for a new region. -/
def newAddress? (e : Evaluator) (s : Step) (m : ByteMemory) : Option Address :=
  match s, ((s.run e).run m).result with
  | allocate _, .ok (.address a) => some a
  | _, _ => none

/-- The addresses that steps give for new regions, in order. -/
def newAddresses : List (Evaluator × Step) → ByteMemory → List Address
  | [], _ => []
  | (e, s) :: steps, m => (newAddress? e s m).toList ++ newAddresses steps ((s.run e).run m).state

/-- A step that makes a region gives the address behind those that there are. -/
lemma newAddress?_eq (e : Evaluator) (s : Step) (m : ByteMemory) :
    newAddress? e s m = s.newSize?.map fun _ => Address.afterRegions m.regions.length := by
  cases s <;> rfl

/-- The addresses of a run begin behind the regions that it found, and follow one another. -/
lemma newAddresses_eq (steps : List (Evaluator × Step)) (m : ByteMemory) :
    newAddresses steps m =
      (List.range' m.regions.length (newSizes steps).length).map Address.afterRegions := by
  induction steps generalizing m with
  | nil => rfl
  | cons s steps ih =>
    obtain ⟨e, s⟩ := s
    have hlength : ((s.run e).run m).state.regions.length =
        m.regions.length + s.newSize?.toList.length := by
      simpa [ByteMemory.sizes] using congrArg List.length (sizes_run e s m)
    rw [newAddresses, ih, newAddress?_eq, hlength, newSizes_cons]
    cases s.newSize? with
    | none => rfl
    | some n =>
      change _ = (List.range' m.regions.length ((newSizes steps).length + 1)).map _
      rw [List.range'_succ]
      rfl

lemma gave_newAddresses (steps : List (Evaluator × Step)) :
    (afterEach steps ByteMemory.empty).Gave (newAddresses steps .empty) := by
  rw [ByteMemory.Gave, newAddresses_eq, length_regions_of_empty, List.range_eq_range']
  rfl

/-! ### Fresh regions -/

/-- Every region that steps make in an empty memory is one of its own when it is made. -/
def AllocatesFresh (steps : List (Evaluator × Step)) : Prop :=
  ∀ before e size later, steps = before ++ (e, .allocate size) :: later →
    (afterEach before ByteMemory.empty).AllocatesFresh (newAddresses before .empty) size

lemma allocatesFresh_after_iff (steps : List (Evaluator × Step)) (size : UInt64) :
    (afterEach steps ByteMemory.empty).AllocatesFresh (newAddresses steps .empty) size ↔
      (newSizes steps).length < 2 ^ 32 := by
  rw [(gave_newAddresses steps).allocatesFresh_iff, length_regions_of_empty]

/-- All regions of a run are of their own exactly if there is a handle for each of them. -/
lemma allocatesFresh_iff_length_le (steps : List (Evaluator × Step)) :
    AllocatesFresh steps ↔ (newSizes steps).length ≤ 2 ^ 32 := by
  constructor
  · intro hfresh
    by_contra hlen
    obtain ⟨before, e, size, later, rfl, hbefore⟩ := exists_allocate_of_lt (not_le.1 hlen)
    have hlt := (allocatesFresh_after_iff before size).1 (hfresh before e size later rfl)
    omega
  · rintro hlen before e size later rfl
    have hsizes : newSizes (before ++ (e, .allocate size) :: later) =
        newSizes before ++ size.toNat :: newSizes later := List.filterMap_append
    rw [hsizes, List.length_append, List.length_cons] at hlen
    rw [allocatesFresh_after_iff]
    omega

/-- **Regions are fresh up to the last handle.** Whatever steps ran on a memory that was empty, the
addresses that they gave for new regions count the regions in 32 bits, and so does the next one. The
regions at the addresses given hold the same bytes when another one is made. The new region is one
of its own, of zeros and with a handle that no address given has, exactly if fewer than `2 ^ 32`
regions were made before; so all regions of a run are exactly if there are at most `2 ^ 32`. -/
theorem handles_of_run (steps : List (Evaluator × Step)) :
    let m : ByteMemory := afterEach steps .empty
    let given := newAddresses steps .empty
    let n := (newSizes steps).length
    given = (List.range n).map Address.afterRegions ∧
      (∀ k, (Address.afterRegions k).region.toNat = k % 2 ^ 32 ∧
        (Address.afterRegions k).offset = 0) ∧
      (∀ e size, ((allocate size).run e).run m =
        ⟨.ok (.address (.afterRegions n)), (m.allocate size).2, []⟩) ∧
      (∀ size, ∀ a ∈ given, ∃ bytes, m.regionBytes? a.region = some bytes ∧
        (m.allocate size).2.regionBytes? a.region = some bytes) ∧
      (∀ size, m.AllocatesFresh given size ↔ n < 2 ^ 32) ∧
      (AllocatesFresh steps ↔ n ≤ 2 ^ 32) := by
  intro m given n
  have hgave : m.Gave given := gave_newAddresses steps
  have hn : m.regions.length = n := length_regions_of_empty steps
  refine ⟨hn ▸ hgave, fun k => ⟨Address.toNat_region_afterRegions k, rfl⟩, fun e size => ?_,
    hgave.kept, allocatesFresh_after_iff steps, allocatesFresh_iff_length_le steps⟩
  rw [← hn]
  rfl

/-- A region of one byte, and then empty ones. -/
def oneThenEmpty (n : Nat) : List (Evaluator × Step) :=
  (.plain, .allocate 1) :: List.replicate n (.plain, .allocate 0)

lemma afterEach_oneThenEmpty (n : Nat) :
    afterEach (oneThenEmpty n) ByteMemory.empty =
      ⟨Region.zeros 1 :: List.replicate n (Region.zeros 0)⟩ := by
  have hempty : ∀ m : ByteMemory, afterEach (List.replicate n (.plain, .allocate 0)) m =
      ⟨m.regions ++ List.replicate n (Region.zeros 0)⟩ := by
    induction n with
    | zero =>
      intro m
      exact congrArg ByteMemory.mk (List.append_nil _).symm
    | succ n ih =>
      intro m
      rw [List.replicate_succ, List.replicate_succ]
      exact (ih _).trans (congrArg ByteMemory.mk (List.append_assoc _ _ _))
  exact hempty _

/-- The one empty region too many has the address of the byte. -/
theorem oneThenEmpty_aliases :
    ¬ AllocatesFresh (oneThenEmpty (2 ^ 32)) ∧
      let m := afterEach (oneThenEmpty (2 ^ 32 - 1)) ByteMemory.empty
      (m.allocate 0).1 = ⟨0, 0⟩ ∧ (m.allocate 0).2.regionBytes? 0 = some [0] := by
  have hlength : ∀ n, (newSizes (oneThenEmpty n)).length = n + 1 := by
    intro n
    rw [← length_regions_of_empty, afterEach_oneThenEmpty, List.length_cons, List.length_replicate]
  refine ⟨?_, ?_⟩
  · rw [allocatesFresh_iff_length_le, hlength]
    exact Nat.not_succ_le_self _
  · rw [afterEach_oneThenEmpty]
    refine ⟨?_, rfl⟩
    change Address.afterRegions (_ :: List.replicate (2 ^ 32 - 1) (Region.zeros 0)).length = _
    rw [List.length_cons, List.length_replicate]
    rfl

end Step

end FixedInt
