import FixedInt.Proofs.Keeping
import FixedInt.Proofs.LayoutHistory

/-!
Arrays of aggregates. Value and flag of an aggregate lie within its size, also after the flag was
moved, so that aggregates which follow each other at that distance have no byte in common. Results
that are stored as the elements of an array, in any order, are all loaded again.
-/

namespace FixedInt

/-! ### Sizes of aggregates -/

namespace AggregateLayout

/-- The flag lies behind the value and ends within the aggregate. -/
structure Nested (p : AggregateLayout) : Prop where
  value_le : p.valueSize ≤ p.flagOffset
  flag_le : p.flagOffset + p.flagSize ≤ p.size
  align_pos : 1 ≤ p.align

variable {p q : AggregateLayout}

lemma nested_ofTypes (value : TypeLayout) {flag : TypeLayout} (h : 1 ≤ flag.align) :
    (ofTypes value flag).Nested where
  value_le := self_le_roundUp _ _
  flag_le := self_le_roundUp _ _
  align_pos := h.trans (le_max_right _ _)

/-- The aggregate grows with its flag. -/
lemma Nested.moveFlag (h : p.Nested) {width offset : Nat} (hq : p.moveFlag width offset = .ok q) :
    q.Nested := by
  obtain ⟨hvalue, rfl⟩ := AggregateLayout.of_moveFlag_eq_ok hq
  exact ⟨hvalue, (le_max_left _ _).trans (self_le_roundUp _ _), h.align_pos⟩

lemma nested_of_moved (h : p.Nested)
    (hq : q = p ∨ ∃ width offset, p.moveFlag width offset = .ok q) :
    q.Nested := by
  rcases hq with rfl | ⟨width, offset, hq⟩
  · exact h
  · exact h.moveFlag hq

/-- Every layout that a table gives is nested, whatever was pinned and asked for before. -/
theorem nested_of_layout {target : Target} (ht : ∀ c, 1 ≤ (target.typeLayout c).align)
    {flag : FlagStorage} {history : List LayoutRequest} {width : Nat}
    (h : ((LayoutTable.layout width).run (LayoutRequest.after target flag history)).result =
      .ok p) :
    p.Nested := by
  rw [LayoutRequest.result_layout_after] at h
  obtain ⟨value, -, hp⟩ := LayoutTable.ofTypes_of_compute h
  have hn := nested_ofTypes (target.typeLayout value) (ht flag.cType)
  rcases hp with rfl | ⟨offset, hmove⟩
  · exact hn
  · exact hn.moveFlag hmove

lemma extent_le_size (h : p.Nested) {w : Width} {slots : ResultSlots}
    (hs : ResultSlots.ofAggregate w p = .ok slots) : slots.extent ≤ p.size := by
  have hvalue := h.value_le
  have hflag := h.flag_le
  obtain ⟨v, -, -, rfl⟩ := ResultSlots.ofAggregate_eq_ok.1 hs
  simp only [extent]
  omega

end AggregateLayout

/-! ### Elements of an array -/

namespace Address

/-- The address of element `i` of an array whose elements have a size. -/
def element (base : Address) (size i : Nat) : Address := base.withOffset (i * size)

end Address

/-- The elements of an array that fits lie one behind the other, and each of them fits. -/
lemma ByteMemory.Fits.element {m : ByteMemory} {base : Address} {n size i : Nat}
    (h : m.Fits base (n * size)) (hi : i < n) :
    (base.element size i).offset.toNat = base.offset.toNat + i * size ∧
      m.Fits (base.element size i) size := by
  have hle : i * size + size ≤ n * size := by
    rw [← Nat.succ_mul]
    exact Nat.mul_le_mul_right size hi
  exact h.withOffset hle

namespace ResultSlots

variable {slots : ResultSlots} {base dest dest' : Address} {r r' : CheckedResult}
  {m m' : ByteMemory} {n size : Nat}

/-- The slots of an element lie between it and the next one. -/
lemma covers_element (hs : slots.Enclosed) (hsize : slots.extent ≤ size)
    (hbase : m.Fits base (n * size)) {i : Nat} (hi : i < n) {k x : Nat}
    (h : slots.Covers (base.element size i) k x) :
    base.offset.toNat + i * size ≤ x ∧ x < base.offset.toNat + (i + 1) * size := by
  have hvalue := hs.value_le
  have hflag := hs.flag_le
  obtain ⟨-, hx⟩ := h
  rw [(hbase.element hi).1] at hx
  rw [Nat.succ_mul]
  omega

/-- **No byte belongs to two elements.** -/
theorem not_covers_element (hs : slots.Enclosed) (hsize : slots.extent ≤ size)
    (hbase : m.Fits base (n * size)) {i j : Nat} (hi : i < n) (hj : j < n) (hij : i ≠ j)
    {k x : Nat} (h : slots.Covers (base.element size i) k x) :
    ¬ slots.Covers (base.element size j) k x := by
  intro h'
  have hx := covers_element hs hsize hbase hi h
  have hx' := covers_element hs hsize hbase hj h'
  rcases Nat.lt_or_gt_of_ne hij with hlt | hlt
  · have hle : (i + 1) * size ≤ j * size := Nat.mul_le_mul_right size hlt
    omega
  · have hle : (j + 1) * size ≤ i * size := Nat.mul_le_mul_right size hlt
    omega

/-! ### Stores of all elements -/

/-- Stores results one after another, each at a place of its own. -/
def storeAll {σ : Type} [Memory σ] (slots : ResultSlots) :
    List (Address × CheckedResult) → Action σ EvalError Unit
  | [] => pure ()
  | (dest, r) :: rest => do
    slots.store dest r
    storeAll slots rest

lemma Stored.holds (h : slots.Stored dest r m m') (hf : m.Fits dest slots.extent) :
    slots.Holds dest r m' :=
  ⟨(ByteMemory.fits_congr h.sizes).2 hf, h.value, h.flag⟩

/-- A store into other slots keeps a result. -/
lemma Holds.of_stored (h : slots.Holds dest r m) (hm : slots.Stored dest' r' m m')
    (hd : ∀ k x, slots.Covers dest k x → ¬ slots.Covers dest' k x) : slots.Holds dest r m' where
  fits := (ByteMemory.fits_congr hm.sizes).2 h.fits
  value j hj := by
    rw [hm.frame _ _ (hd _ _ ⟨rfl, Or.inl (by omega)⟩)]
    exact h.value j hj
  flag j hj := by
    rw [hm.frame _ _ (hd _ _ ⟨rfl, Or.inr (by omega)⟩)]
    exact h.flag j hj

section Array

variable {rs : List CheckedResult}

/-- The results with the addresses of their elements, in the order of the indexes. -/
def elements (base : Address) (size : Nat) (rs : List CheckedResult)
    (order : List (Fin rs.length)) : List (Address × CheckedResult) :=
  order.map fun i : Fin rs.length => (base.element size i, rs[i])

/-- All stores are granted, and at the end the elements that were stored hold their results, as do
those that held them before. -/
theorem run_storeAll (hs : slots.Sound slots.width) (hsize : slots.extent ≤ size)
    (hrs : ∀ r ∈ rs, r.width = slots.width) (order : List (Fin rs.length))
    (hbase : m.Fits base (rs.length * size)) :
    ∃ m', (slots.storeAll (elements base size rs order)).run m = ⟨.ok (), m', []⟩ ∧
      ∀ i : Fin rs.length, i ∈ order ∨ slots.Holds (base.element size i) rs[i] m →
        slots.Holds (base.element size i) rs[i] m' := by
  induction order generalizing m with
  | nil => exact ⟨m, rfl, fun i hi => by simpa using hi⟩
  | cons j order ih =>
    have hfits : m.Fits (base.element size j) slots.extent := by
      obtain ⟨s, hs, hle⟩ := (hbase.element j.isLt).2
      exact ⟨s, hs, by omega⟩
    have hrun := run_store_of_fits hs.enclosed (hrs rs[j] (List.getElem_mem _)) hfits
    have hstored := stored_afterStore (r := rs[j]) hs hfits
    obtain ⟨m', hm', hholds⟩ := ih ((ByteMemory.fits_congr hstored.sizes).2 hbase)
    refine ⟨m', ?_, fun i hi => hholds i ?_⟩
    · rw [elements, List.map_cons, storeAll, Action.run_bind_of_silent hrun]
      exact hm'
    · by_cases hij : i = j
      · subst hij
        exact Or.inr (hstored.holds hfits)
      · rcases hi with hi | hi
        · exact Or.inl (List.mem_of_ne_of_mem hij hi)
        · refine Or.inr (hi.of_stored hstored fun k x => ?_)
          exact not_covers_element hs.enclosed hsize hbase i.isLt j.isLt (Fin.val_ne_of_ne hij)

end Array

/-- **Arrays of aggregates.** The layouts that a table gives for a target that aligns its types are
nested. Of results that are stored as the elements of an array, at the size of such an aggregate
from each other, its flag moved or not, no two have a byte in common. All stores are granted if the
array fits, in whatever order the elements are stored, and afterwards each element is loaded as the
result that was stored there. -/
theorem load_elements :
    (∀ (target : Target) (flag : FlagStorage) (history : List LayoutRequest) (width : Nat)
      (p : AggregateLayout), (∀ c, 1 ≤ (target.typeLayout c).align) →
      ((LayoutTable.layout width).run (LayoutRequest.after target flag history)).result = .ok p →
        p.Nested) ∧
    ∀ (p q : AggregateLayout) (w : Width) (slots : ResultSlots) (rs : List CheckedResult)
      (base : Address) (m : ByteMemory) (order : List (Fin rs.length)),
      p.Nested → (q = p ∨ ∃ width offset, p.moveFlag width offset = .ok q) →
      ofAggregate w q = .ok slots → (∀ r ∈ rs, r.width = w) →
      m.Fits base (rs.length * q.size) → (∀ i, i ∈ order) →
      (∃ m', (slots.storeAll (elements base q.size rs order)).run m = ⟨.ok (), m', []⟩ ∧
        ∀ i : Fin rs.length,
          (slots.load (base.element q.size i)).run m' = ⟨.ok rs[i], m', []⟩) ∧
      ∀ (i j : Fin rs.length) (k x : Nat), i ≠ j →
        slots.Covers (base.element q.size i) k x → ¬ slots.Covers (base.element q.size j) k x := by
  refine ⟨fun target flag history width p ht => AggregateLayout.nested_of_layout ht, ?_⟩
  intro p q w slots rs base m order hp hq hslots hrs hbase horder
  have hnested := AggregateLayout.nested_of_moved hp hq
  have hsize := AggregateLayout.extent_le_size hnested hslots
  have hs : slots.Sound w := sound_of_ofAggregate hslots hnested.value_le
  have hw := hs.width
  subst hw
  refine ⟨?_, fun i j k x hij => ?_⟩
  · obtain ⟨m', hrun, hholds⟩ := run_storeAll hs hsize hrs order hbase
    refine ⟨m', hrun, fun i => ?_⟩
    exact run_load_of_holds hs.enclosed (hrs _ (List.getElem_mem _))
      (hholds i (Or.inl (horder i)))
  · exact not_covers_element hs.enclosed hsize hbase i.isLt j.isLt (Fin.val_ne_of_ne hij)

/-- An aggregate of a value of two bytes and a flag of four bytes that was moved to offset 8. -/
def movedPair : AggregateLayout := ⟨2, 8, 4, 12, 4⟩

/-- A sum that overflows and two that do not. -/
def threeSums : List CheckedResult :=
  [⟨.ofBits .w16 0xffff, true⟩, ⟨.ofBits .w16 7, false⟩, ⟨.ofBits .w16 0x8000, false⟩]

/-- The elements are stored from the last one to the first. -/
theorem load_elements_movedPair :
    ∃ m', (storeAll ⟨.w16, 8, .w32, 12⟩ [(⟨0, 24⟩, ⟨.ofBits .w16 0x8000, false⟩),
        (⟨0, 12⟩, ⟨.ofBits .w16 7, false⟩), (⟨0, 0⟩, ⟨.ofBits .w16 0xffff, true⟩)]).run
        (⟨[Region.zeros 36]⟩ : ByteMemory) = ⟨.ok (), m', []⟩ ∧
      (load ⟨.w16, 8, .w32, 12⟩ ⟨0, 12⟩).run m' = ⟨.ok ⟨.ofBits .w16 7, false⟩, m', []⟩ := by
  obtain ⟨hnested, helements⟩ := load_elements
  have hp : AggregateLayout.Nested ⟨2, 4, 4, 8, 4⟩ :=
    hnested .host .fourBytes [] 16 _ (fun c => by cases c <;> decide) rfl
  have hmove : AggregateLayout.moveFlag ⟨2, 4, 4, 8, 4⟩ 16 8 = .ok movedPair := rfl
  have hfits : ByteMemory.Fits ⟨[Region.zeros 36]⟩ ⟨0, 0⟩ (threeSums.length * movedPair.size) :=
    ⟨36, rfl, by decide⟩
  have horder : ∀ i : Fin 3, i ∈ ([2, 1, 0] : List (Fin 3)) := by decide
  obtain ⟨⟨m', hrun, hload⟩, -⟩ := helements _ movedPair .w16 _ threeSums ⟨0, 0⟩
    ⟨[Region.zeros 36]⟩ _ hp (Or.inr ⟨16, 8, hmove⟩) rfl (by decide) hfits horder
  exact ⟨m', hrun, hload (1 : Fin 3)⟩

end ResultSlots

end FixedInt
