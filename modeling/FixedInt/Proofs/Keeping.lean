import FixedInt.Proofs.Calls
import FixedInt.Proofs.Journal
import FixedInt.Proofs.LayoutWords

/-!
Results that stay. A result that a step stored is loaded from its slots again after any further
steps, of any evaluators and through any slots, if none of the stores that are granted to them puts
a byte into these slots.
-/

namespace FixedInt

/-! ### Slots that are left alone -/

/-- Each store of the journal into the region of `dest` ends before the value of a result at `dest`
or begins behind it, and likewise for the flag. -/
def Journal.Spares (j : Journal) (slots : ResultSlots) (dest : Address) : Prop :=
  ∀ (a : Address) (w : Width) (b : UInt64), .put a w b ∈ j → a.region = dest.region →
    (a.offset.toNat + w.bytes ≤ dest.offset.toNat ∨
      dest.offset.toNat + slots.width.bytes ≤ a.offset.toNat) ∧
    (a.offset.toNat + w.bytes ≤ dest.offset.toNat + slots.flagOffset ∨
      dest.offset.toNat + slots.flagOffset + slots.flagWidth.bytes ≤ a.offset.toNat)

lemma Journal.Spares.byte?_eq_none {j : Journal} {slots : ResultSlots} {dest : Address}
    (h : j.Spares slots dest) {k i : Nat} (hki : slots.Covers dest k i) :
    ∀ c ∈ j, c.byte? k i = none := by
  intro c hc
  cases c with
  | region size => rfl
  | put a w b =>
    refine if_neg ?_
    rintro ⟨hk, hi⟩
    have hregion : a.region = dest.region := UInt32.toNat_inj.1 (hk.symm.trans hki.1)
    obtain ⟨hv, hf⟩ := h a w b hc hregion
    have hcovers := hki.2
    omega

lemma Replays.byte?_of_spared {m m' : ByteMemory} {j : Journal} (h : Replays m j m') {k i : Nat}
    {b : UInt8} (hb : m.byte? k i = some b) (hj : ∀ c ∈ j, c.byte? k i = none) :
    m'.byte? k i = some b := by
  have hi : m.HasByte k i := ByteMemory.exists_byte?_iff.1 ⟨b, hb⟩
  rw [h.byte?_eq (hi.mono h.sizes_le), Journal.lastByte?_eq_none hj, hb]
  rfl

namespace ResultSlots

variable {slots : ResultSlots} {dest : Address} {r : CheckedResult} {m m' : ByteMemory}

theorem Holds.replays {j : Journal} (h : slots.Holds dest r m) (hm : Replays m j m')
    (hj : j.Spares slots dest) : slots.Holds dest r m' where
  fits := h.fits.mono hm.sizes_le
  value i hi := by
    refine hm.byte?_of_spared (h.value i hi) (hj.byte?_eq_none ⟨rfl, Or.inl ?_⟩)
    omega
  flag i hi := by
    refine hm.byte?_of_spared (h.flag i hi) (hj.byte?_eq_none ⟨rfl, Or.inr ?_⟩)
    omega

/-- A store that succeeds leaves the result in its slots. -/
lemma holds_of_store_ok (hs : slots.Sound slots.width)
    (hok : ((slots.store dest r).run m).result = .ok ()) :
    r.width = slots.width ∧ slots.Holds dest r ((slots.store dest r).run m).state := by
  by_cases hr : r.width = slots.width
  · by_cases hf : m.Fits dest slots.extent
    · rw [run_store_of_fits hs.enclosed hr hf]
      have hstored := stored_afterStore (r := r) hs hf
      exact ⟨hr, (ByteMemory.fits_congr hstored.sizes).2 hf, hstored.value, hstored.flag⟩
    · rw [run_store_of_not_fits hr hf] at hok
      cases hok
  · rw [store, if_neg hr] at hok
    cases hok

end ResultSlots

/-! ### Steps that store a result -/

namespace Step

/-- The step stores the result through the slots at `dest`, if it succeeds: by itself, or as the
result of an evaluation, which may be called by name. -/
inductive Stores (e : Evaluator) : Step → ResultSlots → Address → CheckedResult → Prop where
  | arith {op : ArithOp} {w : Width} {left right : Scalar} {dest : Address} {r : CheckedResult}
      (h : op.compute left right = .ok r) :
      Stores e (.arith op w left right dest) (e.slots.get w) dest r
  | call {name : String} {operands : List Nat} {find : Nat → Except EvalError Value}
      {op : ArithOp} {w : Width} {left right : Scalar} {dest : Address} {r : CheckedResult}
      (hcall : ArithCall name operands find op w left right dest)
      (h : op.compute left right = .ok r) :
      Stores e (.call name operands find) (e.slots.get w) dest r
  | store {spec : SlotsSpec} {slots : ResultSlots} {dest : Address} {r : CheckedResult}
      (h : spec.slots = .ok slots) : Stores e (.store spec dest r) slots dest r

variable {e : Evaluator} {s : Step} {slots : ResultSlots} {dest : Address} {r : CheckedResult}
  {m : ByteMemory}

/-- An evaluation that succeeds has stored its result. -/
lemma store_of_arith_ok {op : ArithOp} {w : Width} {left right : Scalar}
    (hc : op.compute left right = .ok r)
    (hok : ∃ a, ((e.arith op w left right dest).run m).result = .ok a) :
    (((e.slots.get w).store dest r).run m).result = .ok () ∧
      ((e.arith op w left right dest).run m).state =
        (((e.slots.get w).store dest r).run m).state := by
  obtain ⟨a, ha⟩ := hok
  by_cases hw : left.width = w ∧ right.width = w
  · obtain ⟨-, hrun⟩ := e.run_arith_of_compute op dest m hw.1 hw.2 hc
    rw [hrun] at ha ⊢
    exact ⟨(Except.exists_of_map_eq_ok ha).choose_spec, rfl⟩
  · obtain ⟨u, hrun⟩ := e.run_arith_of_width_ne op dest m hw
    rw [hrun] at ha
    cases ha

lemma holds_of_arith_ok {op : ArithOp} {w : Width} {left right : Scalar}
    (hs : (e.slots.get w).Sound (e.slots.get w).width) (hc : op.compute left right = .ok r)
    (hok : ∃ a, ((e.arith op w left right dest).run m).result = .ok a) :
    r.width = (e.slots.get w).width ∧
      (e.slots.get w).Holds dest r ((e.arith op w left right dest).run m).state := by
  obtain ⟨hstore, hstate⟩ := store_of_arith_ok hc hok
  rw [hstate]
  exact ResultSlots.holds_of_store_ok hs hstore

/-- **A step that stores a result and succeeds leaves it in its slots.** -/
theorem holds_of_stores (h : s.Stores e slots dest r) (hs : slots.Sound slots.width)
    (hok : ∃ a, ((s.run e).run m).result = .ok a) :
    r.width = slots.width ∧ slots.Holds dest r ((s.run e).run m).state := by
  cases h with
  | arith hc =>
    have hok := exists_ok_of_ofEval _ hok
    rw [run, run_ofEval]
    exact holds_of_arith_ok hs hc hok
  | call hcall hc =>
    have hok := exists_ok_of_ofEval _ hok
    have hrun := Evaluator.run_call_of_arith (e := e) hcall m
    rw [run, run_ofEval, hrun]
    rw [hrun] at hok
    obtain ⟨a, ha⟩ := hok
    exact holds_of_arith_ok hs hc (Except.exists_of_map_eq_ok ha)
  | @store spec slots dest r hspec =>
    have hbind : ((Action.ofExcept spec.slots >>= fun slots => slots.store dest r) :
        Action ByteMemory EvalError Unit).run m = (slots.store dest r).run m := by
      rw [hspec]
      exact Action.run_bind_of_silent (Action.run_ofExcept _ _) _
    obtain ⟨u, hu⟩ := exists_ok_of_ofEval _ hok
    rw [run, run_ofEval, hbind]
    rw [hbind] at hu
    exact ResultSlots.holds_of_store_ok hs hu

/-! ### Runs -/

/-- **No result is lost.** With extents that a machine adds up in words, the slots that settings lead
to are sound exactly if the end of their flag does not wrap, and then they are those in numbers.
Slots of a layout in words whose flag lies behind its value are sound exactly if the end of the flag
does not wrap. A result that a step of a run stored through sound slots is loaded through them at the
end of the run, whatever ran before and after, if the stores that were granted to the steps after it
spare the slots. Stores between value and flag and into other regions may follow, and so may new
regions. -/
theorem load_after_run {σ : Type} (m₀ : σ) :
    (∀ (s : Settings) (host : HostTarget) (e : Evaluator),
      ((Setup.ofSettings s host).run m₀).result = .ok e → ∀ w,
        ((e.slots.get w).inWords.Sound w ↔ (e.slots.get w).EndsInWords) ∧
          ((e.slots.get w).EndsInWords → (e.slots.get w).inWords = e.slots.get w)) ∧
    (∀ (w : Width) (p : WordLayout) (slots : ResultSlots),
      p.slots w = .ok slots → p.valueSize ≤ p.flagOffset →
        (slots.Sound w ↔ p.flagOffset.toNat + p.flagSize.toNat < 2 ^ 64)) ∧
    ∀ (before later : List (Evaluator × Step)) (e : Evaluator) (s : Step) (slots : ResultSlots)
      (dest : Address) (r : CheckedResult) (m : ByteMemory),
      s.Stores e slots dest r → slots.Sound slots.width →
      (∃ a, ((s.run e).run (afterEach before m)).result = .ok a) →
      (journal later (afterEach (before ++ [(e, s)]) m)).Spares slots dest →
      let m' := afterEach (before ++ (e, s) :: later) m
      (slots.load dest).run m' = ⟨.ok r, m', []⟩ := by
  refine ⟨fun s host e he => Evaluator.inWords_of_ofSettings he,
    fun w p slots => WordLayout.sound_slots_iff, ?_⟩
  intro before later e s slots dest r m hstores hs hok hspares
  obtain ⟨hwidth, hholds⟩ := holds_of_stores hstores hs hok
  have hstep : afterEach (before ++ [(e, s)]) m =
      ((s.run e).run (afterEach before m)).state := by
    rw [afterEach_append]
    rfl
  have hlast : afterEach (before ++ (e, s) :: later) m =
      afterEach later (afterEach (before ++ [(e, s)]) m) := by
    rw [← afterEach_append, List.append_assoc]
    rfl
  rw [← hstep] at hholds
  have hreplays := (afterEach_journaled later (afterEach (before ++ [(e, s)]) m)).1
  simp only [hlast]
  exact ResultSlots.run_load_of_holds hs.enclosed hwidth (hholds.replays hreplays hspares)

/-- A store between the value and the flag of a sum, a new region, and a store of a result for the
flag of which there is no room, although its value is stored. -/
def besideSum : List (Evaluator × Step) :=
  [(.plain, .write ⟨0, 0⟩ 1 .w16 0xffff), (.plain, .allocate 4),
    (.plain, .store (.explicit ⟨.w8, 8, .w8, 1⟩) ⟨0, 12⟩ ⟨.ofBits .w8 7, true⟩)]

theorem load_after_besideSum :
    let steps := [(Evaluator.plain, .allocate 16),
      (.plain, .arith .sadd .w8 (.ofBits .w8 100) (.ofBits .w8 100) ⟨0, 0⟩)] ++ besideSum
    let m := afterEach steps ByteMemory.empty
    ((Evaluator.plain.slots.get .w8).load ⟨0, 0⟩).run m =
      ⟨.ok ⟨.ofBits .w8 200, true⟩, m, []⟩ := by
  obtain ⟨hsettings, -, hload⟩ := load_after_run ()
  obtain ⟨hsound, hwords⟩ := hsettings {} .known .plain (Evaluator.result_default .known ()) .w8
  have hs : (Evaluator.plain.slots.get .w8).Sound .w8 := by
    rw [← hwords (by decide)]
    exact hsound.2 (by decide)
  refine hload [(.plain, .allocate 16)] besideSum .plain _ _ ⟨0, 0⟩ ⟨.ofBits .w8 200, true⟩ .empty
    (.arith (by decide)) hs ⟨.address ⟨0, 0⟩, rfl⟩ ?_
  intro a w b hput hregion
  change .put a w b ∈ [Change.put ⟨0, 1⟩ .w16 0xffff, .region 4, .put ⟨0, 12⟩ .w8 7] at hput
  simp only [List.mem_cons, List.not_mem_nil, or_false, reduceCtorEq, false_or] at hput
  rcases hput with hput | hput
  · cases hput
    decide
  · cases hput
    decide

end Step

end FixedInt
