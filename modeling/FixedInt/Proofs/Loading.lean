import FixedInt.Proofs.Storing
import Mathlib.Algebra.BigOperators.Group.Finset.Basic
import Mathlib.Algebra.BigOperators.Ring.Finset

/-!
Bytes read back. A load gives the number that the bytes it covers stand for, the lowest first, and
it is refused where a store of the same range is. From the slots of a result that is still there,
the result is loaded again.
-/

namespace FixedInt

/-! ### Numbers from bytes -/

namespace LittleEndian

theorem ofBytes_toBytes (n v : Nat) : ofBytes (toBytes n v) = v % 256 ^ n := by
  induction n generalizing v with
  | zero => simp [toBytes, ofBytes, Nat.mod_one]
  | succ n ih =>
    have hb : (UInt8.ofNat v).toNat = v % 256 := UInt8.toNat_ofNat'
    rw [toBytes, ofBytes, ih, hb, pow_succ', Nat.mod_mul]

lemma ofBytes_lt (bs : List UInt8) : ofBytes bs < 256 ^ bs.length := by
  induction bs with
  | nil => simp [ofBytes]
  | cons b bs ih =>
    have hb : b.toNat < 256 := b.toNat_lt
    rw [ofBytes, List.length_cons, pow_succ]
    omega

/-- Byte `j` counts `256 ^ j` times. -/
theorem ofBytes_eq_sum (bs : List UInt8) :
    ofBytes bs = ∑ j ∈ Finset.range bs.length, (bs.getD j 0).toNat * 256 ^ j := by
  induction bs with
  | nil => rfl
  | cons b bs ih =>
    have hrest : ∀ j, ((b :: bs).getD (j + 1) 0).toNat * 256 ^ (j + 1) =
        256 * ((bs.getD j 0).toNat * 256 ^ j) := by
      intro j
      rw [List.getD_cons_succ, pow_succ]
      ring
    rw [ofBytes, List.length_cons, Finset.sum_range_succ', Finset.sum_congr rfl fun j _ => hrest j,
      ← Finset.mul_sum, ← ih]
    simp [Nat.add_comm]

end LittleEndian

lemma Width.two_pow_bits_eq (w : Width) : 2 ^ w.bits = 256 ^ w.bytes := by cases w <;> rfl

/-! ### Single bytes -/

namespace ByteMemory

/-- There is a byte at an index of a region. -/
def HasByte (m : ByteMemory) (k i : Nat) : Prop := ∃ size, m.sizes[k]? = some size ∧ i < size

/-- The `n` bytes from an address on, with zeros where there are none. -/
def bytesAt (m : ByteMemory) (a : Address) (n : Nat) : List UInt8 :=
  (List.range n).map fun j => (m.byte? a.region.toNat (a.offset.toNat + j)).getD 0

variable {m m' : ByteMemory} {a : Address} {n k i : Nat}

lemma exists_byte?_iff : (∃ b, m.byte? k i = some b) ↔ m.HasByte k i := by
  unfold byte? HasByte sizes
  rw [List.getElem?_map]
  cases m.regions[k]? with
  | none => simp
  | some r => simp [Region.size, List.getElem?_eq_some_iff]

lemma getElem?_sizes (hs : m.sizes <+: m'.sizes) {size : Nat} (h : m.sizes[k]? = some size) :
    m'.sizes[k]? = some size := by
  obtain ⟨hlt, hk⟩ := List.getElem?_eq_some_iff.1 h
  rw [List.prefix_iff_getElem?.1 hs k hlt, hk]

lemma HasByte.mono (h : m.HasByte k i) (hs : m.sizes <+: m'.sizes) : m'.HasByte k i := by
  obtain ⟨size, hsize, hi⟩ := h
  exact ⟨size, getElem?_sizes hs hsize, hi⟩

lemma Fits.mono (h : m.Fits a n) (hs : m.sizes <+: m'.sizes) : m'.Fits a n := by
  obtain ⟨size, hsize, hle⟩ := h
  exact ⟨size, getElem?_sizes hs hsize, hle⟩

@[simp] lemma length_bytesAt (m : ByteMemory) (a : Address) (n : Nat) :
    (m.bytesAt a n).length = n := by
  simp [bytesAt]

lemma getD_bytesAt {j : Nat} (hj : j < n) :
    (m.bytesAt a n).getD j 0 = (m.byte? a.region.toNat (a.offset.toNat + j)).getD 0 := by
  simp [bytesAt, List.getD_eq_getElem?_getD, hj]

/-- Memories of the same sizes with the same bytes are the same. -/
theorem eq_of_byte?_eq (hs : m.sizes = m'.sizes) (hb : ∀ k i, m.byte? k i = m'.byte? k i) :
    m = m' := by
  have hregions : m.regions = m'.regions := by
    apply List.ext_getElem?
    intro k
    have hk := congrArg (·[k]?) hs
    simp only [sizes, List.getElem?_map] at hk
    cases hr : m.regions[k]? with
    | none => simp_all
    | some r =>
      cases hr' : m'.regions[k]? with
      | none => simp_all
      | some r' =>
        have hbytes : r.bytes = r'.bytes := by
          apply List.ext_getElem?
          intro i
          simpa [byte?, hr, hr'] using hb k i
        cases r
        cases r'
        simp_all
  cases m
  cases m'
  exact congrArg _ hregions

/-! ### Loads -/

lemma slice_eq_bytesAt {r : Region} (hr : m.regions[a.region.toNat]? = some r)
    (h : a.offset.toNat + n ≤ r.size) : r.slice a.offset.toNat n = m.bytesAt a n := by
  apply List.ext_getElem?
  intro j
  rw [Region.slice, bytesAt, List.getElem?_take, List.getElem?_map, List.getElem?_drop]
  by_cases hj : j < n
  · have hlt : a.offset.toNat + j < r.bytes.length := by
      unfold Region.size at h
      omega
    simp [hj, byte?, hr, List.getElem?_eq_getElem hlt]
  · simp [hj]

/-- **A load gives the number of the bytes it covers.** -/
theorem read_of_fits {off : Nat} {w : Width} (h : m.Fits (a.withOffset off) w.bytes) :
    read a off w m =
      (.ok (UInt64.ofNat (LittleEndian.ofBytes (m.bytesAt (a.withOffset off) w.bytes))), m) := by
  obtain ⟨r, hr, hle⟩ := fits_iff.1 h
  rw [read, locate_of_region hr hle]
  simp only [slice_eq_bytesAt hr hle]

lemma read_of_not_fits {off : Nat} {w : Width} (h : ¬ m.Fits (a.withOffset off) w.bytes) :
    read a off w m = (.error (m.refusal (a.withOffset off) w.bytes), m) := by
  rw [read, locate_of_not_fits h]

/-- The number loaded lies within the width. -/
lemma toNat_ofNat_ofBytes {w : Width} {bs : List UInt8} (h : bs.length = w.bytes) :
    (UInt64.ofNat (LittleEndian.ofBytes bs)).toNat = LittleEndian.ofBytes bs ∧
      LittleEndian.ofBytes bs < 2 ^ w.bits := by
  have hlt : LittleEndian.ofBytes bs < 2 ^ w.bits := by
    rw [w.two_pow_bits_eq, ← h]
    exact LittleEndian.ofBytes_lt bs
  have hw : 2 ^ w.bits ≤ 2 ^ 64 := Nat.le_of_dvd (by decide) w.two_pow_bits_dvd
  refine ⟨?_, hlt⟩
  rw [UInt64.toNat_ofNat']
  exact Nat.mod_eq_of_lt (lt_of_lt_of_le hlt hw)

lemma run_read_of_fits {w : Width} (h : m.Fits (a.withOffset n) w.bytes) :
    (Action.memory (Memory.read a n w)).run m =
      ⟨.ok (UInt64.ofNat (LittleEndian.ofBytes (m.bytesAt (a.withOffset n) w.bytes))), m, []⟩ :=
  Action.run_memory (read_of_fits h)

end ByteMemory

/-! ### Loads of results -/

namespace ResultSlots

/-- The value and the flag of a result lie in their slots at `dest`. -/
structure Holds (slots : ResultSlots) (dest : Address) (r : CheckedResult) (m : ByteMemory) :
    Prop where
  fits : m.Fits dest slots.extent
  value : ∀ j < slots.width.bytes,
    m.byte? dest.region.toNat (dest.offset.toNat + j) =
      some (LittleEndian.byteOf r.value.bits.toNat j)
  flag : ∀ j < slots.flagWidth.bytes,
    m.byte? dest.region.toNat (dest.offset.toNat + slots.flagOffset + j) =
      some (LittleEndian.byteOf r.overflow.toNat j)

variable {slots : ResultSlots} {dest : Address} {r : CheckedResult} {m : ByteMemory}

lemma bytesAt_eq_toBytes {a : Address} {n v : Nat}
    (h : ∀ j < n, m.byte? a.region.toNat (a.offset.toNat + j) =
      some (LittleEndian.byteOf v j)) : m.bytesAt a n = LittleEndian.toBytes n v := by
  apply List.ext_getElem?
  intro j
  rw [LittleEndian.getElem?_toBytes, ByteMemory.bytesAt, List.getElem?_map]
  by_cases hj : j < n
  · simp [hj, h j hj]
  · simp [hj]

lemma toNat_overflow_mod (b : Bool) (w : Width) : b.toNat % 256 ^ w.bytes = b.toNat := by
  cases b <;> cases w <;> rfl

/-- **What is still in its slots is loaded.** -/
theorem run_load_of_holds (he : slots.Enclosed) (hr : r.width = slots.width)
    (h : slots.Holds dest r m) : (slots.load dest).run m = ⟨.ok r, m, []⟩ := by
  have hvalue : 0 + slots.width.bytes ≤ slots.extent := by simpa using he.value_le
  obtain ⟨ho, hv⟩ := h.fits.withOffset hvalue
  obtain ⟨ho', hf⟩ := h.fits.withOffset he.flag_le
  have hbits : m.bytesAt (dest.withOffset 0) slots.width.bytes =
      LittleEndian.toBytes slots.width.bytes r.value.bits.toNat := by
    refine bytesAt_eq_toBytes fun j hj => ?_
    rw [ho]
    exact h.value j hj
  have hflag : m.bytesAt (dest.withOffset slots.flagOffset) slots.flagWidth.bytes =
      LittleEndian.toBytes slots.flagWidth.bytes r.overflow.toNat := by
    refine bytesAt_eq_toBytes fun j hj => ?_
    rw [ho']
    exact h.flag j hj
  -- the bits of the result lie within its width, so that no byte of them was left out
  have hlt : r.value.bits.toNat % 256 ^ slots.width.bytes = r.value.bits.toNat := by
    rw [← Width.two_pow_bits_eq, ← hr]
    exact (r.value.width.toNat_truncate _).symm.trans (congrArg UInt64.toNat r.value.fits)
  have hscalar : Scalar.ofBits slots.width r.value.bits = r.value := by
    rw [← hr]
    exact r.value.ofBits_width_bits
  have hbool : (UInt64.ofNat r.overflow.toNat != 0) = r.overflow := by
    cases r.overflow <;> rfl
  rw [load, Action.run_bind_of_silent (ByteMemory.run_read_of_fits hv),
    Action.run_bind_of_silent (ByteMemory.run_read_of_fits hf), hbits, hflag,
    LittleEndian.ofBytes_toBytes, LittleEndian.ofBytes_toBytes, hlt, toNat_overflow_mod,
    UInt64.ofNat_toNat, hscalar, hbool]
  rfl

end ResultSlots

end FixedInt
