import FixedInt.Proofs.Journal
import Mathlib.Tactic.TFAE

/-!
Ranges that are checked. A range is granted exactly if every access inside of it is: one that runs
past the end of its region leaves it with the byte at the end, before any offset wraps around to the
beginning. What was once answered for a range of a region holds for good, since regions never change
their sizes.
-/

namespace FixedInt.ByteMemory

variable {m m' : ByteMemory} {a : Address} {n off : Nat} {w : Width}

/-! ### What is granted -/

lemma check_eq_ok_iff : (check a n m).1 = .ok () ↔ m.Fits a n := by
  by_cases h : m.Fits a n
  · simp [check_of_fits h, h]
  · simp [check_of_not_fits h, h]

lemma write_eq_ok_iff {b : UInt64} :
    (write a off w b m).1 = .ok () ↔ m.Fits (a.withOffset off) w.bytes := by
  by_cases h : m.Fits (a.withOffset off) w.bytes
  · simp [write_of_fits h, h]
  · simp [write_of_not_fits h, h]

lemma exists_read_eq_ok_iff :
    (∃ v, (read a off w m).1 = .ok v) ↔ m.Fits (a.withOffset off) w.bytes := by
  by_cases h : m.Fits (a.withOffset off) w.bytes
  · simp [read_of_fits h, h]
  · simp [read_of_not_fits h, h]

/-! ### Ranges byte by byte -/

/-- A range and the byte right behind it make a range. The offset of that byte does not wrap, since
the range ends within a region. -/
lemma Fits.succ (h : m.Fits a n) (hnext : m.Fits (a.withOffset n) 1) : m.Fits a (n + 1) := by
  have hoffset : (a.withOffset n).offset.toNat = a.offset.toNat + n :=
    Address.toNat_withOffset h.toNat_lt
  obtain ⟨size, hsize, hle⟩ := hnext
  rw [hoffset] at hle
  exact ⟨size, hsize, by omega⟩

/-- **A range fits if all its bytes do.** -/
theorem fits_iff_bytes (hn : 1 ≤ n) : m.Fits a n ↔ ∀ i < n, m.Fits (a.withOffset i) 1 := by
  constructor
  · intro h i hi
    exact (h.withOffset hi).2
  · intro h
    induction n, hn using Nat.le_induction with
    | base => simpa [Address.withOffset] using h 0 (by decide)
    | succ n hn ih =>
      have hrange : m.Fits a n := ih fun i hi => h i (by omega)
      exact hrange.succ (h n (by omega))

/-! ### Answers that stay -/

/-- New regions play no part for a range of an old one. -/
lemma fits_iff_of_sizes_le (hs : m.sizes <+: m'.sizes) (ha : a.region.toNat < m.regions.length) :
    m'.Fits a n ↔ m.Fits a n := by
  refine ⟨fun ⟨size, hsize, hle⟩ => ⟨size, ?_, hle⟩, fun h => h.mono hs⟩
  have hk : a.region.toNat < m.sizes.length := by rwa [sizes, List.length_map]
  rw [← hsize, List.getElem?_eq_getElem hk]
  exact (getElem?_sizes hs (List.getElem?_eq_getElem hk)).symm

theorem check_of_sizes_le (hs : m.sizes <+: m'.sizes) (ha : a.region.toNat < m.regions.length) :
    (check a n m').1 = (check a n m).1 := by
  have ha' : a.region.toNat < m'.regions.length := by
    have hle := hs.length_le
    rw [sizes, sizes, List.length_map, List.length_map] at hle
    omega
  by_cases h : m.Fits a n
  · rw [check_of_fits h, check_of_fits (h.mono hs)]
  · have h' : ¬ m'.Fits a n := by rwa [fits_iff_of_sizes_le hs ha]
    rw [check_of_not_fits h, check_of_not_fits h', refusal, refusal, if_neg (by omega),
      if_neg (by omega)]

/-- Only a range of a region is answered otherwise than that the region is unknown. -/
lemma lt_length_of_check (h : (check a n m).1 ≠ .error (.unknownRegion a.region)) :
    a.region.toNat < m.regions.length := by
  by_contra hlen
  have hf : ¬ m.Fits a n := by
    rintro ⟨size, hsize, -⟩
    rw [sizes, List.getElem?_eq_none (by rw [List.length_map]; omega)] at hsize
    cases hsize
  rw [check_of_not_fits hf, refusal, if_pos (by omega)] at h
  exact h rfl

/-- **A check tells about every access.** A range that is not empty is granted exactly if a store of
each of its bytes is, whatever is stored, and then every store and every load inside of it is
granted too. However steps go on, a range that was granted is granted, and one that ran out of its
region still does. -/
theorem check_tells_accesses (m : ByteMemory) (a : Address) {n : Nat} (hn : 1 ≤ n) :
    [(check a n m).1 = .ok (),
      ∀ i < n, ∃ b, (write a i .w8 b m).1 = .ok (),
      ∀ i < n, ∀ b, (write a i .w8 b m).1 = .ok (),
      ∀ off w, off + w.bytes ≤ n →
        (∀ b, (write a off w b m).1 = .ok ()) ∧ ∃ v, (read a off w m).1 = .ok v].TFAE ∧
      ∀ steps : List (Evaluator × Step),
        ((check a n m).1 = .ok () → (check a n (Step.afterEach steps m)).1 = .ok ()) ∧
        ((check a n m).1 = .error (.outOfBounds a n) →
          (check a n (Step.afterEach steps m)).1 = .error (.outOfBounds a n)) := by
  constructor
  · simp only [check_eq_ok_iff, write_eq_ok_iff, exists_read_eq_ok_iff, exists_const, forall_const,
      and_self]
    tfae_have 1 ↔ 2 := fits_iff_bytes hn
    tfae_have 2 ↔ 3 := Iff.rfl
    tfae_have 1 → 4 := fun h off w hle => (h.withOffset hle).2
    tfae_have 4 → 2 := fun h i hi => h i .w8 hi
    tfae_finish
  · intro steps
    have hs : m.sizes <+: (Step.afterEach steps m).sizes :=
      (Step.afterEach_journaled steps m).1.sizes_le
    have hstays : (check a n m).1 ≠ .error (.unknownRegion a.region) →
        (check a n (Step.afterEach steps m)).1 = (check a n m).1 := fun h =>
      check_of_sizes_le hs (lt_length_of_check h)
    constructor <;> intro h <;> rw [hstays (by simp [h]), h]

/-- A memory of one region of eight bytes. -/
def eightZeros : ByteMemory := ⟨[Region.zeros 8]⟩

/-- The last address of a region that does not reach so far. -/
def lastAddress : Address := ⟨0, 0xffffffffffffffff⟩

/-- All bytes of the range but the first one would wrap around into the region. -/
theorem check_tells_accesses_wrapping :
    1 ≤ 9 ∧ (check lastAddress 9 eightZeros).1 = .error (.outOfBounds lastAddress 9) ∧
      (∀ b, (write lastAddress 1 .w64 b eightZeros).1 = .ok ()) ∧
      ¬ (∀ i < 9, ∃ b, (write lastAddress i .w8 b eightZeros).1 = .ok ()) ∧
      ∀ steps : List (Evaluator × Step),
        (check lastAddress 9 (Step.afterEach steps eightZeros)).1 =
          .error (.outOfBounds lastAddress 9) := by
  obtain ⟨htfae, hstays⟩ := check_tells_accesses eightZeros lastAddress (n := 9) (by decide)
  have hcheck : (check lastAddress 9 eightZeros).1 = .error (.outOfBounds lastAddress 9) := by rfl
  refine ⟨by decide, hcheck, fun b => ?_, fun hbytes => ?_, fun steps => (hstays steps).2 hcheck⟩
  · exact write_eq_ok_iff.2 ⟨8, rfl, by decide⟩
  · have hok := (htfae.out 1 0).1 hbytes
    rw [hcheck] at hok
    cases hok

end FixedInt.ByteMemory
