import FixedInt.Proofs.Runs

/-!
What the range check before a store stands for. It guards the stores of an evaluator exactly if the
extent covers value and flag. Settings lead only to such evaluators; slots that are supplied are
taken over whatever their extent.
-/

namespace FixedInt

/-! ### Guarded actions -/

/-- What the action changes lies in the range, and where it fails it changes nothing. -/
structure Action.Guarded {ε α : Type} (x : Action ByteMemory ε α) (a : Address) (n : Nat) :
    Prop where
  changes : ∀ m k i, (x.run m).state.byte? k i ≠ m.byte? k i →
    k = a.region.toNat ∧ a.offset.toNat ≤ i ∧ i < a.offset.toNat + n
  failsCleanly : x.FailsCleanly

section Guarded

variable {ε α β : Type} {a : Address} {n : Nat}

lemma Action.LeavesState.guarded {x : Action ByteMemory ε α} (hx : x.LeavesState) :
    x.Guarded a n where
  changes m k i h := by
    rw [hx m] at h
    exact absurd rfl h
  failsCleanly := hx.failsCleanly

/-- The answer and the records play no part. -/
lemma Action.guarded_congr {x : Action ByteMemory ε α} {y : Action ByteMemory ε β}
    (hs : ∀ m, (x.run m).state = (y.run m).state)
    (he : ∀ m err, (x.run m).result = .error err ↔ (y.run m).result = .error err) :
    x.Guarded a n ↔ y.Guarded a n := by
  constructor
  · intro h
    exact ⟨fun m k i => hs m ▸ h.changes m k i,
      fun m err herr => hs m ▸ h.failsCleanly m err ((he m err).2 herr)⟩
  · intro h
    exact ⟨fun m k i => (hs m).symm ▸ h.changes m k i,
      fun m err herr => (hs m).symm ▸ h.failsCleanly m err ((he m err).1 herr)⟩

end Guarded

namespace ResultSlots

variable {slots : ResultSlots}

theorem guarded_store (he : slots.Enclosed) (dest : Address) (r : CheckedResult) :
    (slots.store dest r).Guarded dest slots.extent where
  changes m k i h := by
    have hvalue := he.value_le
    have hflag := he.flag_le
    by_cases hr : r.width = slots.width
    · by_cases hf : m.Fits dest slots.extent
      · rw [run_store_of_fits he hr hf, byte?_afterStore he hf] at h
        split_ifs at h with h1 h2
        · omega
        · omega
        · exact absurd rfl h
      · rw [run_store_of_not_fits hr hf] at h
        exact absurd rfl h
    · rw [store, if_neg hr] at h
      exact absurd rfl h
  failsCleanly := failsCleanly_store he dest r

/-- One region of bytes that are not zero. -/
def marked (n : Nat) (h : n < UInt64.size) : ByteMemory :=
  ⟨[⟨List.replicate n 0xaa, by simpa using h⟩]⟩

/-- The result zero, without overflow. -/
def zeroResult (w : Width) : CheckedResult := ⟨.ofBits w 0, false⟩

lemma byte?_store_zeros {m : ByteMemory} {a : Address} {n k i : Nat} (h : m.Fits a n)
    (hi : m.byte? k i = some 0 ∨
      k = a.region.toNat ∧ a.offset.toNat ≤ i ∧ i < a.offset.toNat + n) :
    (m.store a (LittleEndian.toBytes n 0)).byte? k i = some 0 := by
  rw [ByteMemory.byte?_store (by rwa [LittleEndian.length_toBytes]),
    LittleEndian.length_toBytes, LittleEndian.getElem?_toBytes]
  have hzero : LittleEndian.byteOf 0 (i - a.offset.toNat) = 0 := by
    simp [LittleEndian.byteOf]
  split_ifs with h1 h2
  · rw [hzero]
  · omega
  · exact hi.resolve_right h1

section Marked

variable {n : Nat} (hn : n < UInt64.size)

lemma fits_marked {a : Address} {k : Nat} (ha : a.region = 0) :
    (marked n hn).Fits a k ↔ a.offset.toNat + k ≤ n := by
  simp [marked, ByteMemory.Fits, ByteMemory.sizes, Region.size, ha]

lemma byte?_marked {i : Nat} (hi : i < n) : (marked n hn).byte? 0 i = some 0xaa := by
  simp [marked, ByteMemory.byte?, hi]

end Marked

/-- If the extent leaves out the end of the value or of the flag, there is a store that is not
guarded. In a region just large enough for extent and value, a result of zero changes a byte
behind the extent, or its value is stored and its flag is not. -/
theorem enclosed_of_guarded (hext : slots.extent < UInt64.size)
    (hoff : slots.flagOffset < UInt64.size)
    (h : (slots.store ⟨0, 0⟩ (zeroResult slots.width)).Guarded ⟨0, 0⟩ slots.extent) :
    slots.Enclosed := by
  have hb : 0 < slots.width.bytes ∧ slots.width.bytes ≤ 8 := by cases slots.width <;> decide
  have hzero : (zeroResult slots.width).value.bits.toNat = 0 := by cases slots.width <;> rfl
  have hn : max slots.extent slots.width.bytes < UInt64.size := by
    have : 8 < UInt64.size := by decide
    omega
  have hflag : (Address.withOffset ⟨0, 0⟩ slots.flagOffset).offset.toNat = slots.flagOffset :=
    (Address.toNat_withOffset (by simpa using hoff)).trans (Nat.zero_add _)
  have hcheck : (marked _ hn).Fits ⟨0, 0⟩ slots.extent := (fits_marked hn rfl).2 (by simp)
  have hvalue : (marked _ hn).Fits (Address.withOffset ⟨0, 0⟩ 0) slots.width.bytes :=
    (fits_marked hn rfl).2 (by simp [Address.withOffset])
  have hwidth : (zeroResult slots.width).width = slots.width := rfl
  have hrun := run_store_of_value_fits hwidth hcheck hvalue
  have hsizes := ByteMemory.sizes_store (marked _ hn) (Address.withOffset ⟨0, 0⟩ 0)
    (LittleEndian.toBytes slots.width.bytes 0)
  -- the last byte of the value tells whether anything was stored
  have hlast := byte?_store_zeros hvalue (k := 0) (i := slots.width.bytes - 1)
    (Or.inr ⟨rfl, Nat.zero_le _, by simp [Address.withOffset]; omega⟩)
  have hmarked := byte?_marked hn (i := slots.width.bytes - 1) (by omega)
  rw [hzero] at hrun
  generalize (marked _ hn).store (Address.withOffset ⟨0, 0⟩ 0)
    (LittleEndian.toBytes slots.width.bytes 0) = m₁ at hrun hsizes hlast
  by_cases hf : m₁.Fits (Address.withOffset ⟨0, 0⟩ slots.flagOffset) slots.flagWidth.bytes
  · have hchanges := h.changes (marked _ hn) 0 (slots.width.bytes - 1) (by
      rw [hrun, ByteMemory.run_write_of_fits hf, hmarked]
      change ByteMemory.byte? (ByteMemory.store _ _ (LittleEndian.toBytes _ 0)) _ _ ≠ _
      rw [byte?_store_zeros hf (Or.inl hlast)]
      decide)
    rw [ByteMemory.fits_congr hsizes, fits_marked hn rfl, hflag] at hf
    have hend : slots.width.bytes - 1 < 0 + slots.extent := hchanges.2.2
    exact ⟨by omega, by omega⟩
  · rw [ByteMemory.run_write_of_not_fits hf] at hrun
    have hclean : m₁ = marked _ hn := by
      have hstate := h.failsCleanly (marked _ hn) _ (congrArg Outcome.result hrun)
      rwa [hrun] at hstate
    rw [hclean, hmarked] at hlast
    cases hlast

end ResultSlots

namespace Evaluator

variable (e : Evaluator) (op : ArithOp) {w : Width} {left right : Scalar}

/-- An evaluation is guarded exactly if the store of its result is. -/
lemma guarded_arith_iff (hl : left.width = w) (hr : right.width = w) {r : CheckedResult}
    (hc : op.compute left right = .ok r) (dest a : Address) (n : Nat) :
    (e.arith op w left right dest : Action ByteMemory EvalError Address).Guarded a n ↔
      ((e.slots.get w).store dest r).Guarded a n := by
  have hrun := fun m : ByteMemory => (e.run_arith_of_compute op dest m hl hr hc).2
  refine Action.guarded_congr (fun m => by rw [hrun]) fun m err => ?_
  rw [hrun]
  exact Except.map_eq_error

variable (w) in
/-- The check of the extent guards all that evaluations at the width store. -/
def GuardsStores : Prop :=
  ∀ op left right dest, (e.arith op w left right dest : Action ByteMemory EvalError
    Address).Guarded dest (e.slots.get w).extent

variable {e}

lemma guardsStores_of_enclosed (he : (e.slots.get w).Enclosed) : e.GuardsStores w := by
  intro op left right dest
  by_cases hlr : left.width = w ∧ right.width = w
  · exact (e.guarded_arith_iff op hlr.1 hlr.2 (op.compute_eq hlr.1 hlr.2) _ _ _).2
      (ResultSlots.guarded_store he dest _)
  · refine Action.LeavesState.guarded fun m => ?_
    obtain ⟨cause, hrun⟩ := e.run_arith_of_width_ne op dest m hlr
    rw [hrun]

/-- The check guards the stores only if the extent covers value and flag. -/
lemma enclosed_of_guardsStores (hw : (e.slots.get w).width = w)
    (hext : (e.slots.get w).extent < UInt64.size)
    (hoff : (e.slots.get w).flagOffset < UInt64.size) (h : e.GuardsStores w) :
    (e.slots.get w).Enclosed := by
  have hc : ArithOp.uadd.compute (.ofBits w 0) (.ofBits w 0) =
      .ok (ResultSlots.zeroResult w) := by cases w <;> decide
  have hstore := (e.guarded_arith_iff .uadd rfl rfl hc _ _ _).1
    (h .uadd (.ofBits w 0) (.ofBits w 0) ⟨0, 0⟩)
  exact ResultSlots.enclosed_of_guarded hext hoff (hw.symm ▸ hstore)

/-- **Which evaluators check all that they store.** Settings, the default ones among them, lead only
to sound slots and guarded stores. Slots that are supplied are taken over if each has the width of
its place, and nothing else is asked of them; so their stores are guarded exactly if their extents
cover value and flag. -/
theorem guards_of_construction {σ : Type} (m₀ : σ) :
    (∀ s host e, ((Setup.ofSettings s host).run m₀).result = .ok e →
      ∀ w, (e.slots.get w).Sound w ∧ e.GuardsStores w) ∧
    (∀ e, ((new : Action σ EvalError Evaluator).run m₀).result = .ok e →
      ∀ w, (e.slots.get w).Sound w ∧ e.GuardsStores w) ∧
    (∀ slots policy e, ((ofSlots slots policy).run m₀).result = .ok e ↔
      (∀ w, (slots.get w).width = w) ∧ e = ⟨slots, policy⟩) ∧
    ∀ (e : Evaluator) (w : Width), (e.slots.get w).width = w →
      (e.slots.get w).extent < UInt64.size → (e.slots.get w).flagOffset < UInt64.size →
        (e.GuardsStores w ↔ (e.slots.get w).Enclosed) := by
  have hsettings : ∀ s host e, ((Setup.ofSettings s host).run m₀).result = .ok e →
      ∀ w, (e.slots.get w).Sound w ∧ e.GuardsStores w := fun s host e he w =>
    have hs := sound_of_ofSettings he w
    ⟨hs, guardsStores_of_enclosed hs.enclosed⟩
  refine ⟨hsettings, fun e => hsettings {} .known e, fun slots policy e => result_ofSlots_eq_ok, ?_⟩
  intro e w hw hext hoff
  exact ⟨enclosed_of_guardsStores hw hext hoff, guardsStores_of_enclosed⟩

/-- Slots for eight bits whose extent ends before their flag. -/
def shortSlots : PerWidth ResultSlots :=
  { PerWidth.ofFn ResultSlots.withFourByteFlag with w8 := ⟨.w8, 4, .w32, 1⟩ }

theorem shortSlots_unguarded :
    ((ofSlots shortSlots .ignore).run ()).result = .ok ⟨shortSlots, .ignore⟩ ∧
      ¬ GuardsStores ⟨shortSlots, .ignore⟩ .w8 ∧
      let o := (arith ⟨shortSlots, .ignore⟩ .uadd .w8 (.ofBits .w8 1) (.ofBits .w8 0) ⟨0, 0⟩).run
        (⟨[Region.zeros 1]⟩ : ByteMemory)
      o.result = .error (.memory (.outOfBounds ⟨0, 4⟩ 4)) ∧ o.state.byte? 0 0 = some 1 := by
  obtain ⟨-, -, hmade, hiff⟩ := guards_of_construction ()
  refine ⟨(hmade _ _ _).2 ⟨fun w => ?_, rfl⟩, fun h => ?_, rfl, rfl⟩
  · cases w <;> rfl
  · have henclosed := (hiff ⟨shortSlots, .ignore⟩ .w8 rfl (by decide) (by decide)).1 h
    exact absurd henclosed.flag_le (by decide)

end Evaluator

end FixedInt
