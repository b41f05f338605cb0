import FixedInt.Proofs.Arithmetic
import FixedInt.Proofs.Bytes
import FixedInt.Proofs.Construction

/-!
What storing a result does to the bytes of a memory. If the extent fits, value and flag are put at
their places and no other byte changes; if not, the store is refused and no byte changes. From
this, what an evaluator does that computes and stores.
-/

namespace FixedInt

/-! ### Accesses as parts of an evaluation -/

section Access

lemma Action.run_memory {σ α : Type} [Memory σ] {x : Access σ α} {y : Except MemoryError α}
    {m m' : σ} (h : x m = (y, m')) :
    (Action.memory x).run m = ⟨y.mapError .memory, m', []⟩ := by
  change Outcome.mk ((x m).1.mapError _) (x m).2 [] = _
  rw [h]

variable {m : ByteMemory} {a : Address} {n : Nat}

lemma ByteMemory.run_check_of_fits (h : m.Fits a n) :
    (Action.memory (Memory.check a n)).run m = ⟨.ok (), m, []⟩ :=
  Action.run_memory (check_of_fits h)

lemma ByteMemory.run_check_of_not_fits (h : ¬ m.Fits a n) :
    (Action.memory (Memory.check a n)).run m = ⟨.error (.memory (m.refusal a n)), m, []⟩ :=
  Action.run_memory (check_of_not_fits h)

lemma ByteMemory.run_write_of_fits {w : Width} (h : m.Fits (a.withOffset n) w.bytes)
    (b : UInt64) :
    (Action.memory (Memory.write a n w b)).run m =
      ⟨.ok (), m.store (a.withOffset n) (LittleEndian.toBytes w.bytes b.toNat), []⟩ :=
  Action.run_memory (write_of_fits h b)

lemma ByteMemory.run_write_of_not_fits {w : Width} (h : ¬ m.Fits (a.withOffset n) w.bytes)
    (b : UInt64) :
    (Action.memory (Memory.write a n w b)).run m =
      ⟨.error (.memory (m.refusal (a.withOffset n) w.bytes)), m, []⟩ :=
  Action.run_memory (write_of_not_fits h b)

end Access

/-! ### Stores of results -/

namespace ResultSlots

/-- Index `i` of region `k` holds a byte of the value or the flag of a result at `dest`. -/
def Covers (slots : ResultSlots) (dest : Address) (k i : Nat) : Prop :=
  k = dest.region.toNat ∧
    (dest.offset.toNat ≤ i ∧ i < dest.offset.toNat + slots.width.bytes ∨
      dest.offset.toNat + slots.flagOffset ≤ i ∧
        i < dest.offset.toNat + slots.flagOffset + slots.flagWidth.bytes)

/-- The second memory is the first one after the result was stored at `dest`. -/
structure Stored (slots : ResultSlots) (dest : Address) (r : CheckedResult) (m m' : ByteMemory) :
    Prop where
  sizes : m'.sizes = m.sizes
  value : ∀ j < slots.width.bytes,
    m'.byte? dest.region.toNat (dest.offset.toNat + j) =
      some (LittleEndian.byteOf r.value.bits.toNat j)
  flag : ∀ j < slots.flagWidth.bytes,
    m'.byte? dest.region.toNat (dest.offset.toNat + slots.flagOffset + j) =
      some (LittleEndian.byteOf r.overflow.toNat j)
  frame : ∀ k i, ¬ slots.Covers dest k i → m'.byte? k i = m.byte? k i

section Store

variable {slots : ResultSlots} {w : Width} {dest : Address} {r : CheckedResult} {m : ByteMemory}

/-- The memory after the value and then the flag of a result were stored. -/
def afterStore (slots : ResultSlots) (dest : Address) (r : CheckedResult) (m : ByteMemory) :
    ByteMemory :=
  (m.store (dest.withOffset 0) (LittleEndian.toBytes slots.width.bytes r.value.bits.toNat)).store
    (dest.withOffset slots.flagOffset)
    (LittleEndian.toBytes slots.flagWidth.bytes r.overflow.toNat)

lemma toNat_flag (b : Bool) : b.toUInt64.toNat = b.toNat := by
  cases b <;> rfl

/-- If the extent and the value fit, the flag is stored behind a value that stays. -/
lemma run_store_of_value_fits (hr : r.width = slots.width) (h : m.Fits dest slots.extent)
    (hv : m.Fits (dest.withOffset 0) slots.width.bytes) :
    (slots.store dest r).run m =
      (Action.memory (Memory.write dest slots.flagOffset slots.flagWidth
        r.overflow.toUInt64)).run
        (m.store (dest.withOffset 0)
          (LittleEndian.toBytes slots.width.bytes r.value.bits.toNat)) := by
  rw [store, if_pos hr, Action.run_bind_of_silent (ByteMemory.run_check_of_fits h),
    Action.run_bind_of_silent (ByteMemory.run_write_of_fits hv _)]

/-- **Within an extent that fits neither store can fail.** -/
theorem run_store_of_fits (he : slots.Enclosed) (hr : r.width = slots.width)
    (h : m.Fits dest slots.extent) :
    (slots.store dest r).run m = ⟨.ok (), slots.afterStore dest r m, []⟩ := by
  have hvalue : 0 + slots.width.bytes ≤ slots.extent := by simpa using he.value_le
  have hv : m.Fits (dest.withOffset 0) slots.width.bytes := (h.withOffset hvalue).2
  -- the first store keeps the sizes of the regions, so that the second one still fits
  have hf : (m.store (dest.withOffset 0)
      (LittleEndian.toBytes slots.width.bytes r.value.bits.toNat)).Fits
      (dest.withOffset slots.flagOffset) slots.flagWidth.bytes := by
    rw [ByteMemory.fits_congr (ByteMemory.sizes_store m _ _)]
    exact (h.withOffset he.flag_le).2
  rw [run_store_of_value_fits hr h hv, ByteMemory.run_write_of_fits hf, toNat_flag]
  rfl

/-- If the extent does not fit, nothing is stored. -/
lemma run_store_of_not_fits (hr : r.width = slots.width) (h : ¬ m.Fits dest slots.extent) :
    (slots.store dest r).run m = ⟨.error (.memory (m.refusal dest slots.extent)), m, []⟩ := by
  rw [store, if_pos hr, Action.run_bind_of_error _
    (congrArg Outcome.result (ByteMemory.run_check_of_not_fits h)),
    ByteMemory.run_check_of_not_fits h]

/-- The bytes of both stores, the second one looked at first. -/
lemma byte?_afterStore (he : slots.Enclosed) (h : m.Fits dest slots.extent) (k i : Nat) :
    (slots.afterStore dest r m).byte? k i =
      if k = dest.region.toNat ∧ dest.offset.toNat + slots.flagOffset ≤ i ∧
          i < dest.offset.toNat + slots.flagOffset + slots.flagWidth.bytes then
        some (LittleEndian.byteOf r.overflow.toNat (i - (dest.offset.toNat + slots.flagOffset)))
      else if k = dest.region.toNat ∧ dest.offset.toNat ≤ i ∧
          i < dest.offset.toNat + slots.width.bytes then
        some (LittleEndian.byteOf r.value.bits.toNat (i - dest.offset.toNat))
      else m.byte? k i := by
  have hvalue : 0 + slots.width.bytes ≤ slots.extent := by simpa using he.value_le
  obtain ⟨ho, hv⟩ := h.withOffset hvalue
  obtain ⟨ho', hf⟩ := h.withOffset he.flag_le
  rw [afterStore, ByteMemory.byte?_store, ByteMemory.byte?_store]
  · simp only [Address.region_withOffset, LittleEndian.length_toBytes,
      LittleEndian.getElem?_toBytes, ho, ho', Nat.add_zero]
    -- an index that one of the stores covers is inside the bytes of that store
    split_ifs <;> first | rfl | omega
  · rwa [LittleEndian.length_toBytes]
  · rwa [LittleEndian.length_toBytes, ByteMemory.fits_congr (ByteMemory.sizes_store m _ _)]

/-- A store into an extent that fits puts value and flag at their places and changes nothing
else. -/
theorem stored_afterStore (hs : slots.Sound w) (h : m.Fits dest slots.extent) :
    slots.Stored dest r m (slots.afterStore dest r m) where
  sizes := by rw [afterStore, ByteMemory.sizes_store, ByteMemory.sizes_store]
  value := by
    intro j hj
    have hvalue := hs.value_le
    rw [← hs.width] at hvalue
    rw [byte?_afterStore hs.enclosed h, if_neg (by omega), if_pos (by omega),
      Nat.add_sub_cancel_left]
  flag := by
    intro j hj
    rw [byte?_afterStore hs.enclosed h, if_pos (by omega), Nat.add_sub_cancel_left]
  frame := by
    intro k i hki
    unfold Covers at hki
    rw [byte?_afterStore hs.enclosed h, if_neg (by omega), if_neg (by omega)]

end Store

end ResultSlots

/-! ### Computing and storing -/

namespace Evaluator

variable (e : Evaluator) (op : ArithOp) {w : Width} {left right : Scalar} (dest : Address)

section Memory

variable {σ : Type} [Memory σ] (m : σ)

/-- Operands of the declared width are computed with and the result is stored. -/
lemma run_arith_of_width (hl : left.width = w) (hr : right.width = w) :
    ∃ r, op.compute left right = .ok r ∧ r.width = w ∧
      (e.arith op w left right dest).run m =
        let o := ((e.slots.get w).store dest r).run m
        ⟨o.result.map fun _ => dest, o.state, .arithmetic op left right r :: o.log⟩ := by
  obtain ⟨r, hc⟩ : ∃ r, op.compute left right = .ok r := ⟨_, op.compute_eq hl hr⟩
  have hplan := op.plan_of_width hl hr
  have hrun : (Plan.arith op w).runArith left right = .ok r := by
    rw [← hc, ArithOp.compute, hplan]
    rfl
  refine ⟨r, hc, ?_, ?_⟩
  · rw [ArithOp.compute_eq op hl hr] at hc
    cases hc
    rfl
  · have htrace : ((Plan.arith op w).traceArith left right).run m =
        ⟨.ok r, m, [.arithmetic op left right r]⟩ := by
      rw [Plan.traceArith, hrun]
      rfl
    have hw : (Plan.arith op w).width = w := rfl
    rw [arith, hplan, Action.run_bind_of_silent (Action.run_ofExcept _ _), if_pos hw,
      Action.run_bind_of_ok _ (congrArg Outcome.result htrace), htrace, Action.run_bind_pure]
    rfl

lemma run_arith_of_compute (hl : left.width = w) (hr : right.width = w) {r : CheckedResult}
    (hc : op.compute left right = .ok r) :
    r.width = w ∧ (e.arith op w left right dest).run m =
      let o := ((e.slots.get w).store dest r).run m
      ⟨o.result.map fun _ => dest, o.state, .arithmetic op left right r :: o.log⟩ := by
  obtain ⟨r', hc', hrun⟩ := e.run_arith_of_width op dest m hl hr
  rw [hc] at hc'
  cases hc'
  exact hrun

omit m in
/-- Operands of other widths are refused before anything is stored, with every memory alike. -/
lemma refuses_of_width_ne (h : ¬ (left.width = w ∧ right.width = w)) :
    ∃ u, ∀ m : σ, (e.arith op w left right dest).run m = ⟨.error (.unsupported u), m, []⟩ := by
  by_cases heq : left.width = right.width
  · have hw : left.width ≠ w := fun hw => h ⟨hw, heq ▸ hw⟩
    refine ⟨.declaredWidth op w left.width, fun m => ?_⟩
    rw [arith, op.plan_of_width rfl heq.symm]
    change (if left.width = w then _ else _ : Action σ EvalError Address).run m = _
    rw [if_neg hw]
    rfl
  · refine ⟨.operands (.arith op) left.shape right.shape, fun m => ?_⟩
    rw [arith, op.plan_of_width_ne heq]
    rfl

lemma run_arith_of_width_ne (h : ¬ (left.width = w ∧ right.width = w)) :
    ∃ u, (e.arith op w left right dest).run m = ⟨.error (.unsupported u), m, []⟩ := by
  obtain ⟨u, hu⟩ := e.refuses_of_width_ne (σ := σ) op dest h
  exact ⟨u, hu m⟩

end Memory

section Bytes

variable (m : ByteMemory)

/-- If the extent fits, the result is stored and the destination is the answer. -/
theorem run_arith_of_fits (hs : (e.slots.get w).Sound w) (hl : left.width = w)
    (hr : right.width = w) (h : m.Fits dest (e.slots.get w).extent) :
    ∃ r, op.compute left right = .ok r ∧
      (e.arith op w left right dest).run m =
        ⟨.ok dest, (e.slots.get w).afterStore dest r m, [.arithmetic op left right r]⟩ := by
  obtain ⟨r, hc, hrw, hrun⟩ := e.run_arith_of_width op dest m hl hr
  refine ⟨r, hc, ?_⟩
  rw [hrun, ResultSlots.run_store_of_fits hs.enclosed (hrw.trans hs.width.symm) h]
  rfl

/-- If the extent does not fit, the result is computed and not stored. -/
theorem run_arith_of_not_fits (hs : (e.slots.get w).Sound w) (hl : left.width = w)
    (hr : right.width = w) (h : ¬ m.Fits dest (e.slots.get w).extent) :
    ∃ r, (e.arith op w left right dest).run m =
      ⟨.error (.memory (m.refusal dest (e.slots.get w).extent)), m,
        [.arithmetic op left right r]⟩ := by
  obtain ⟨r, -, hrw, hrun⟩ := e.run_arith_of_width op dest m hl hr
  refine ⟨r, ?_⟩
  rw [hrun, ResultSlots.run_store_of_not_fits (hrw.trans hs.width.symm) h]
  rfl

/-- **Computing and storing**, with every evaluator made from settings. It succeeds exactly if both
operands have the declared width and the extent of its slots fits at the destination. Then the
destination is the answer, value and flag of the exact result lie in their slots, and all other
bytes are as before. Otherwise the widths are blamed first, then the region, then its size. -/
theorem arith_stores {σ : Type} {e : Evaluator} {s : Settings} {host : HostTarget} {m₀ : σ}
    (he : ((Setup.ofSettings s host).run m₀).result = .ok e) (op : ArithOp) (w : Width)
    (left right : Scalar) (dest : Address) (m : ByteMemory) :
    (e.slots.get w).Sound w ∧
      ((∃ a, ((e.arith op w left right dest).run m).result = .ok a) ↔
        left.width = w ∧ right.width = w ∧ m.Fits dest (e.slots.get w).extent) ∧
      (∀ a, ((e.arith op w left right dest).run m).result = .ok a →
        a = dest ∧ ∃ r, op.compute left right = .ok r ∧
          (e.slots.get w).Stored dest r m ((e.arith op w left right dest).run m).state) ∧
      ∀ err, ((e.arith op w left right dest).run m).result = .error err →
        if left.width = w ∧ right.width = w then
          err = .memory (m.refusal dest (e.slots.get w).extent)
        else ∃ cause, err = .unsupported cause := by
  have hs := sound_of_ofSettings he w
  refine ⟨hs, ?_⟩
  by_cases hw : left.width = w ∧ right.width = w
  · by_cases h : m.Fits dest (e.slots.get w).extent
    · obtain ⟨r, hc, hrun⟩ := e.run_arith_of_fits op dest m hs hw.1 hw.2 h
      rw [hrun]
      refine ⟨⟨fun _ => ⟨hw.1, hw.2, h⟩, fun _ => ⟨dest, rfl⟩⟩, ?_, ?_⟩
      · rintro a ha
        cases ha
        exact ⟨rfl, r, hc, ResultSlots.stored_afterStore hs h⟩
      · rintro err herr
        cases herr
    · obtain ⟨r, hrun⟩ := e.run_arith_of_not_fits op dest m hs hw.1 hw.2 h
      rw [hrun]
      refine ⟨⟨fun ⟨a, ha⟩ => ?_, fun ⟨_, _, hf⟩ => absurd hf h⟩, ?_, ?_⟩
      · cases ha
      · rintro a ha
        cases ha
      · rintro err herr
        cases herr
        rw [if_pos hw]
  · obtain ⟨cause, hrun⟩ := e.run_arith_of_width_ne op dest m hw
    rw [hrun]
    refine ⟨⟨fun ⟨a, ha⟩ => ?_, fun ⟨hl, hr, _⟩ => absurd ⟨hl, hr⟩ hw⟩, ?_, ?_⟩
    · cases ha
    · rintro a ha
      cases ha
    · rintro err herr
      cases herr
      rw [if_neg hw]
      exact ⟨cause, rfl⟩

/-- One region of sixteen zeros. -/
def sixteenZeros : ByteMemory := ⟨[Region.zeros 16]⟩

theorem arith_stores_plain :
    ((Setup.ofSettings {} .known).run ()).result = .ok plain ∧
      ((plain.arith .sadd .w8 (.ofBits .w8 100) (.ofBits .w8 100) ⟨0, 4⟩).run
        sixteenZeros).result = .ok ⟨0, 4⟩ ∧
      ((plain.arith .sadd .w8 (.ofBits .w8 100) (.ofBits .w8 100) ⟨0, 4⟩).run
        sixteenZeros).state.byte? 0 4 = some 200 ∧
      ((plain.arith .sadd .w8 (.ofBits .w8 100) (.ofBits .w8 100) ⟨0, 4⟩).run
        sixteenZeros).state.byte? 0 8 = some 1 := by
  obtain ⟨-, hiff, hok, -⟩ := arith_stores (result_default .known ()) .sadd .w8 (.ofBits .w8 100)
    (.ofBits .w8 100) ⟨0, 4⟩ sixteenZeros
  obtain ⟨a, ha⟩ := hiff.2 ⟨rfl, rfl, 16, rfl, by decide⟩
  obtain ⟨rfl, r, hr, hstored⟩ := hok a ha
  have hc : ArithOp.sadd.compute (.ofBits .w8 100) (.ofBits .w8 100) =
      .ok ⟨.ofBits .w8 200, true⟩ := by decide
  rw [hc] at hr
  cases hr
  exact ⟨result_default .known (), ha, hstored.value 0 (by decide), hstored.flag 0 (by decide)⟩

end Bytes

end Evaluator

end FixedInt
