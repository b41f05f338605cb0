import FixedInt.Memory.Bytes
import FixedInt.Proofs.Word

/-!
The bytes of a memory, one by one. An access to a range that fits succeeds, a store puts its bytes
where it says and keeps all others, and everything else fails and changes nothing.
-/

namespace FixedInt

/-! ### The bytes of a number -/

namespace LittleEndian

/-- Byte `j` of a number, counted from the lowest. -/
def byteOf (v j : Nat) : UInt8 := UInt8.ofNat (v / 256 ^ j)

theorem getElem?_toBytes (n v j : Nat) :
    (toBytes n v)[j]? = if j < n then some (byteOf v j) else none := by
  induction n generalizing v j with
  | zero => simp [toBytes]
  | succ n ih =>
    cases j with
    | zero => simp [toBytes, byteOf]
    | succ j => simp [toBytes, byteOf, ih, Nat.pow_succ', Nat.div_div_eq_div_mul]

end LittleEndian

/-! ### Ranges -/

@[simp] lemma Address.region_withOffset (a : Address) (n : Nat) :
    (a.withOffset n).region = a.region := rfl

lemma Address.toNat_withOffset {a : Address} {n : Nat} (h : a.offset.toNat + n < 2 ^ 64) :
    (a.withOffset n).offset.toNat = a.offset.toNat + n := by
  rw [withOffset, UInt64.toNat_add, UInt64.toNat_ofNat']
  omega

lemma Region.getElem?_splice (r : Region) (start : Nat) (new : List UInt8) (i : Nat)
    (h : start + new.length ≤ r.size) :
    (r.splice start new).bytes[i]? =
      if start ≤ i ∧ i < start + new.length then new[i - start]? else r.bytes[i]? := by
  rw [splice, List.getElem?_mapIdx]
  by_cases hi : start ≤ i ∧ i < start + new.length
  · have hb : i < r.bytes.length := by unfold size at h; omega
    have hn : i - start < new.length := by omega
    simp [hi, List.getElem?_eq_getElem hb, List.getElem?_eq_getElem hn]
  · rw [if_neg hi]
    have hn : start ≤ i → new[i - start]? = none := fun hs =>
      List.getElem?_eq_none (by omega)
    cases r.bytes[i]? with
    | none => rfl
    | some b =>
      by_cases hs : start ≤ i
      · simp [hs, hn hs]
      · simp [hs]

namespace ByteMemory

/-- The byte at an index of a region, if there is one. -/
def byte? (m : ByteMemory) (k i : Nat) : Option UInt8 := m.regions[k]?.bind fun r => r.bytes[i]?

/-- The lengths of the regions. -/
def sizes (m : ByteMemory) : List Nat := m.regions.map Region.size

/-- The region of the address is there, and the `n` bytes from the address on lie in it. -/
def Fits (m : ByteMemory) (a : Address) (n : Nat) : Prop :=
  ∃ size, m.sizes[a.region.toNat]? = some size ∧ a.offset.toNat + n ≤ size

/-- Why a range is refused. -/
def refusal (m : ByteMemory) (a : Address) (n : Nat) : MemoryError :=
  if m.regions.length ≤ a.region.toNat then .unknownRegion a.region else .outOfBounds a n

variable {m : ByteMemory} {a : Address} {n : Nat}

lemma fits_iff : m.Fits a n ↔
    ∃ r, m.regions[a.region.toNat]? = some r ∧ a.offset.toNat + n ≤ r.size := by
  simp [Fits, sizes, List.getElem?_map]

/-- Offsets in a range that fits do not wrap. -/
lemma Fits.toNat_lt (h : m.Fits a n) : a.offset.toNat + n < 2 ^ 64 := by
  obtain ⟨r, -, hle⟩ := fits_iff.1 h
  exact lt_of_le_of_lt hle r.length_lt

/-- A part of a range that fits lies where it is meant to, and fits too. -/
lemma Fits.withOffset (h : m.Fits a n) {i k : Nat} (hk : i + k ≤ n) :
    (a.withOffset i).offset.toNat = a.offset.toNat + i ∧ m.Fits (a.withOffset i) k := by
  have hlt := h.toNat_lt
  have ho : (a.withOffset i).offset.toNat = a.offset.toNat + i :=
    Address.toNat_withOffset (by omega)
  obtain ⟨size, hs, hle⟩ := h
  exact ⟨ho, size, hs, by omega⟩

lemma fits_congr {m' : ByteMemory} (h : m.sizes = m'.sizes) : m.Fits a n ↔ m'.Fits a n := by
  rw [Fits, Fits, h]

lemma refusal_congr {m' : ByteMemory} (h : m.sizes = m'.sizes) :
    m.refusal a n = m'.refusal a n := by
  have hlen : m.regions.length = m'.regions.length := by
    simpa [sizes] using congrArg List.length h
  rw [refusal, refusal, hlen]

lemma locate_of_region {r : Region} (hr : m.regions[a.region.toNat]? = some r)
    (hle : a.offset.toNat + n ≤ r.size) : m.locate a n = .ok r := by
  rw [locate, hr]
  exact if_pos hle

lemma locate_of_fits (h : m.Fits a n) : ∃ r, m.locate a n = .ok r := by
  obtain ⟨r, hr, hle⟩ := fits_iff.1 h
  exact ⟨r, locate_of_region hr hle⟩

lemma locate_of_not_fits (h : ¬ m.Fits a n) : m.locate a n = .error (m.refusal a n) := by
  rw [locate, refusal]
  cases hr : m.regions[a.region.toNat]? with
  | none => rw [if_pos (List.getElem?_eq_none_iff.1 hr)]
  | some r =>
    have hlt := (List.getElem?_eq_some_iff.1 hr).1
    rw [if_neg (by omega)]
    exact if_neg fun hle => h (fits_iff.2 ⟨r, hr, hle⟩)

/-! ### Accesses -/

lemma check_of_fits (h : m.Fits a n) : check a n m = (.ok (), m) := by
  obtain ⟨r, hr⟩ := locate_of_fits h
  rw [check, hr]

lemma check_of_not_fits (h : ¬ m.Fits a n) : check a n m = (.error (m.refusal a n), m) := by
  rw [check, locate_of_not_fits h]

lemma write_of_fits {off : Nat} {w : Width} (h : m.Fits (a.withOffset off) w.bytes) (b : UInt64) :
    write a off w b m =
      (.ok (), m.store (a.withOffset off) (LittleEndian.toBytes w.bytes b.toNat)) := by
  obtain ⟨r, hr⟩ := locate_of_fits h
  rw [write, hr]

lemma write_of_not_fits {off : Nat} {w : Width} (h : ¬ m.Fits (a.withOffset off) w.bytes)
    (b : UInt64) :
    write a off w b m = (.error (m.refusal (a.withOffset off) w.bytes), m) := by
  rw [write, locate_of_not_fits h]

lemma snd_check (a : Address) (n : Nat) (m : ByteMemory) : (check a n m).2 = m := by
  unfold check
  split <;> rfl

lemma snd_read (a : Address) (off : Nat) (w : Width) (m : ByteMemory) :
    (read a off w m).2 = m := by
  unfold read
  split <;> rfl

lemma snd_write_of_error {off : Nat} {w : Width} {b : UInt64} {err : MemoryError}
    (h : (write a off w b m).1 = .error err) : (write a off w b m).2 = m := by
  by_cases hf : m.Fits (a.withOffset off) w.bytes
  · rw [write_of_fits hf] at h
    cases h
  · rw [write_of_not_fits hf]

/-! ### Stores -/

lemma sizes_store (m : ByteMemory) (a : Address) (new : List UInt8) :
    (m.store a new).sizes = m.sizes := by
  apply List.ext_getElem?
  intro k
  simp only [sizes, store, List.getElem?_map, List.getElem?_modify]
  cases m.regions[k]? with
  | none => rfl
  | some r => split <;> simp

/-- **A store replaces its bytes and no others.** -/
theorem byte?_store {new : List UInt8} (h : m.Fits a new.length) (k i : Nat) :
    (m.store a new).byte? k i =
      if k = a.region.toNat ∧ a.offset.toNat ≤ i ∧ i < a.offset.toNat + new.length then
        new[i - a.offset.toNat]?
      else m.byte? k i := by
  obtain ⟨r, hr, hle⟩ := fits_iff.1 h
  simp only [byte?, store, List.getElem?_modify]
  by_cases hk : k = a.region.toNat
  · subst hk
    simp [hr, Region.getElem?_splice r _ new i hle]
  · cases m.regions[k]? <;> simp [hk, Ne.symm hk]

end ByteMemory

end FixedInt
