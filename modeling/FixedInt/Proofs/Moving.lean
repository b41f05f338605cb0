import FixedInt.Proofs.Layout
import Mathlib.Data.List.Induction

/-!
Flags that are moved. A flag can be moved to any offset behind the value that its size divides, and
the aggregate then has the least size, at its alignment, that holds the flag and is no smaller than
before. Moves that follow each other never drift: the last one places the flag, and the size is the
least one that was ever needed.
-/

namespace FixedInt

/-- Rounding up gives the least multiple that is not below the number. -/
lemma isLeast_multiple {align : Nat} (h : 1 ≤ align) (value : Nat) :
    IsLeast {n | align ∣ n ∧ value ≤ n} (roundUp value align) :=
  ⟨⟨dvd_roundUp h value, self_le_roundUp value align⟩,
    fun _ hn => roundUp_le hn.2 (Nat.mod_eq_zero_of_dvd hn.1)⟩

namespace AggregateLayout

variable {p q r : AggregateLayout} {width offset : Nat}

/-! ### One move -/

/-- The flag may be moved to the offset: behind the value, at a multiple of its size. -/
def Admits (p : AggregateLayout) (offset : Nat) : Prop :=
  p.valueSize ≤ offset ∧ p.flagSize ∣ offset

/-- The aggregate `q` is `p` after its flag was moved to some offsets, at last to `offset`. It has
the least size, at the alignment, that is not below that of `p` and held the flag at each of the
offsets. -/
structure MovedTo (p q : AggregateLayout) (offsets : List Nat) (offset : Nat) : Prop where
  valueSize : q.valueSize = p.valueSize
  flagSize : q.flagSize = p.flagSize
  align : q.align = p.align
  flagOffset : q.flagOffset = offset
  size : IsLeast {n | p.align ∣ n ∧ p.size ≤ n ∧ ∀ o ∈ offsets, o + p.flagSize ≤ n} q.size

lemma movedTo_roundUp (halign : 1 ≤ p.align) (offset : Nat) :
    p.MovedTo { p with
      flagOffset := offset
      size := roundUp (max (offset + p.flagSize) p.size) p.align } [offset] offset := by
  refine ⟨rfl, rfl, rfl, rfl, ?_⟩
  have hset : {n | p.align ∣ n ∧ p.size ≤ n ∧ ∀ o ∈ [offset], o + p.flagSize ≤ n} =
      {n | p.align ∣ n ∧ max (offset + p.flagSize) p.size ≤ n} := by
    ext n
    simp [and_comm]
  rw [hset]
  exact isLeast_multiple halign _

section Move

variable (hflag : 1 ≤ p.flagSize) (halign : 1 ≤ p.align)
include hflag halign

/-- All that can become of a move. -/
theorem moveFlag_cases (width offset : Nat) :
    (offset < p.valueSize ∧ p.moveFlag width offset = .error (.overlappingFlag width offset)) ∨
    ((p.valueSize ≤ offset ∧ ¬ p.flagSize ∣ offset) ∧
      p.moveFlag width offset = .error (.misalignedFlag width offset p.flagSize)) ∨
    (p.Admits offset ∧ ∃ q, p.moveFlag width offset = .ok q ∧ p.MovedTo q [offset] offset) := by
  unfold moveFlag
  split_ifs with hvalue hempty hmod
  · exact Or.inl ⟨hvalue, rfl⟩
  · omega
  · exact Or.inr (Or.inl ⟨⟨by omega, mt Nat.mod_eq_zero_of_dvd hmod⟩, rfl⟩)
  · have hdvd := Nat.dvd_of_mod_eq_zero (not_not.1 hmod)
    exact Or.inr (Or.inr ⟨⟨by omega, hdvd⟩, _, rfl, movedTo_roundUp halign offset⟩)

lemma exists_moveFlag_iff (width offset : Nat) :
    (∃ q, p.moveFlag width offset = .ok q) ↔ p.Admits offset := by
  rcases moveFlag_cases hflag halign width offset with
    ⟨hlt, h⟩ | ⟨hne, h⟩ | ⟨hadmits, q, h, -⟩
  · exact iff_of_false (by simp [h]) fun hadmits => absurd hadmits.1 (by omega)
  · exact iff_of_false (by simp [h]) fun hadmits => hne.2 hadmits.2
  · exact iff_of_true ⟨q, h⟩ hadmits

theorem movedTo_of_moveFlag (h : p.moveFlag width offset = .ok q) :
    p.MovedTo q [offset] offset := by
  rcases moveFlag_cases hflag halign width offset with ⟨-, h'⟩ | ⟨-, h'⟩ | ⟨-, q', h', hmoved⟩
  · rw [h] at h'
    cases h'
  · rw [h] at h'
    cases h'
  · rw [h] at h'
    cases h'
    exact hmoved

/-- To lie on the value comes before lying askew. -/
lemma moveFlag_eq_error_iff (width offset : Nat) :
    (p.moveFlag width offset = .error (.overlappingFlag width offset) ↔ offset < p.valueSize) ∧
      (p.moveFlag width offset = .error (.misalignedFlag width offset p.flagSize) ↔
        p.valueSize ≤ offset ∧ ¬ p.flagSize ∣ offset) := by
  rcases moveFlag_cases hflag halign width offset with
    ⟨hlt, h⟩ | ⟨hne, h⟩ | ⟨hadmits, q, h, -⟩
  · simp [h, hlt]
  · simp [h, hne]
  · simp [h, hadmits.1, hadmits.2]

end Move

/-! ### Moves after each other -/

namespace MovedTo

variable {os os' : List Nat} {o o' : Nat}

/-- The layout is given by the offsets, in whatever order and however often they stand. -/
lemma unique (hq : p.MovedTo q os o) (hr : p.MovedTo r os' o) (h : ∀ n, n ∈ os ↔ n ∈ os') :
    q = r := by
  have hvalue := hq.valueSize.trans hr.valueSize.symm
  have hoffset := hq.flagOffset.trans hr.flagOffset.symm
  have hflag := hq.flagSize.trans hr.flagSize.symm
  have halign := hq.align.trans hr.align.symm
  have hsize : q.size = r.size := by
    have hr' := hr.size
    simp only [← h] at hr'
    exact hq.size.unique hr'
  cases q
  cases r
  simp only [mk.injEq]
  exact ⟨hvalue, hoffset, hflag, hsize, halign⟩

/-- **A size that was rounded up does not drift**: a multiple of the alignment holds it exactly if
it holds what was rounded up. -/
lemma size_le_iff (hq : p.MovedTo q os o) {n : Nat} (hn : p.align ∣ n) :
    q.size ≤ n ↔ p.size ≤ n ∧ ∀ o ∈ os, o + p.flagSize ≤ n := by
  obtain ⟨⟨-, hsize, hflag⟩, hleast⟩ := hq.size
  constructor
  · intro h
    exact ⟨hsize.trans h, fun o ho => (hflag o ho).trans h⟩
  · intro h
    exact hleast ⟨hn, h⟩

lemma trans (hq : p.MovedTo q os o) (hr : q.MovedTo r os' o') : p.MovedTo r (os ++ os') o' where
  valueSize := hr.valueSize.trans hq.valueSize
  flagSize := hr.flagSize.trans hq.flagSize
  align := hr.align.trans hq.align
  flagOffset := hr.flagOffset
  size := by
    have hset : {n | q.align ∣ n ∧ q.size ≤ n ∧ ∀ o ∈ os', o + q.flagSize ≤ n} =
        {n | p.align ∣ n ∧ p.size ≤ n ∧ ∀ o ∈ os ++ os', o + p.flagSize ≤ n} := by
      ext n
      simp only [Set.mem_ofPred_eq, hq.align, hq.flagSize, List.forall_mem_append, ← and_assoc]
      refine and_congr_left fun _ => ?_
      rw [and_assoc]
      exact and_congr_right hq.size_le_iff
    rw [← hset]
    exact hr.size

lemma admits_iff (hq : p.MovedTo q os o) {n : Nat} : q.Admits n ↔ p.Admits n := by
  rw [Admits, Admits, hq.valueSize, hq.flagSize]

/-- The flag that was moved last ends within the aggregate. -/
lemma extent_le (hq : p.MovedTo q os o) (ho : o ∈ os) (hadmits : p.Admits o) :
    q.extent = o + p.flagSize ∧ q.extent ≤ q.size := by
  have hextent : q.extent = o + p.flagSize := by
    have hvalue := hadmits.1
    rw [extent, hq.valueSize, hq.flagOffset, hq.flagSize]
    omega
  exact ⟨hextent, hextent ▸ hq.size.1.2.2 o ho⟩

end MovedTo

/-- Moves the flag again and again, until a move is refused. A move is the width that names the
aggregate and an offset. -/
def moveFlags (p : AggregateLayout) (moves : List (Nat × Nat)) :
    Except LayoutError AggregateLayout :=
  moves.foldlM (fun p move => p.moveFlag move.1 move.2) p

lemma moveFlags_concat_eq_ok {moves : List (Nat × Nat)} {last : Nat × Nat} :
    p.moveFlags (moves ++ [last]) = .ok q ↔
      ∃ p', p.moveFlags moves = .ok p' ∧ p'.moveFlag last.1 last.2 = .ok q := by
  simp [moveFlags, List.foldlM_append, Except.bind_eq_ok]

section Chain

variable (hflag : 1 ≤ p.flagSize) (halign : 1 ≤ p.align)
include hflag halign

/-- Every move is accepted exactly if the flag may lie at its offset to begin with. -/
lemma exists_moveFlags_iff (moves : List (Nat × Nat)) :
    (∃ q, p.moveFlags moves = .ok q) ↔ ∀ move ∈ moves, p.Admits move.2 := by
  induction moves generalizing p with
  | nil => exact iff_of_true ⟨p, rfl⟩ (by simp)
  | cons move moves ih =>
    have hfirst := exists_moveFlag_iff hflag halign move.1 move.2
    simp only [moveFlags, List.foldlM_cons, Except.bind_eq_ok, List.forall_mem_cons] at ih ⊢
    constructor
    · rintro ⟨q, p', hp', hq⟩
      have hmoved := movedTo_of_moveFlag hflag halign hp'
      have hrest := (ih (hmoved.flagSize ▸ hflag) (hmoved.align ▸ halign)).1 ⟨q, hq⟩
      exact ⟨hfirst.1 ⟨p', hp'⟩, fun m hm => hmoved.admits_iff.1 (hrest m hm)⟩
    · rintro ⟨hmove, hrest⟩
      obtain ⟨p', hp'⟩ := hfirst.2 hmove
      have hmoved := movedTo_of_moveFlag hflag halign hp'
      obtain ⟨q, hq⟩ := (ih (hmoved.flagSize ▸ hflag) (hmoved.align ▸ halign)).2
        fun m hm => hmoved.admits_iff.2 (hrest m hm)
      exact ⟨q, p', hp', hq⟩

theorem movedTo_of_moveFlags {moves : List (Nat × Nat)} {last : Nat × Nat}
    (h : p.moveFlags (moves ++ [last]) = .ok q) :
    p.MovedTo q ((moves ++ [last]).map Prod.snd) last.2 := by
  obtain ⟨p', hp', hq⟩ := moveFlags_concat_eq_ok.1 h
  clear h
  induction moves using List.reverseRecOn generalizing p' last q with
  | nil =>
    cases hp'
    exact movedTo_of_moveFlag hflag halign hq
  | append_singleton moves move ih =>
    obtain ⟨p'', hp'', hmove⟩ := moveFlags_concat_eq_ok.1 hp'
    have hmoved := ih p'' hp'' hmove
    have hlast := movedTo_of_moveFlag (hmoved.flagSize ▸ hflag) (hmoved.align ▸ halign) hq
    simpa using hmoved.trans hlast

/-- Of a chain of moves only the last offset and the others that there were make a difference. -/
lemma moveFlags_congr {moves moves' : List (Nat × Nat)} {last last' : Nat × Nat}
    (h : p.moveFlags (moves ++ [last]) = .ok q) (hlast : last.2 = last'.2)
    (hmem : ∀ n, n ∈ (moves ++ [last]).map Prod.snd ↔ n ∈ (moves' ++ [last']).map Prod.snd) :
    p.moveFlags (moves' ++ [last']) = .ok q := by
  have hadmits : ∀ n ∈ (moves ++ [last]).map Prod.snd, p.Admits n :=
    List.forall_mem_map.2 ((exists_moveFlags_iff hflag halign _).1 ⟨q, h⟩)
  simp only [hmem] at hadmits
  obtain ⟨q', hq'⟩ := (exists_moveFlags_iff hflag halign _).2 (List.forall_mem_map.1 hadmits)
  have hmoved := movedTo_of_moveFlags hflag halign h
  have hmoved' := movedTo_of_moveFlags hflag halign hq'
  rw [hlast] at hmoved
  rw [hq', hmoved.unique hmoved' hmem]

end Chain

/-! ### Any moves -/

/-- **Where a flag can be moved to, and what the aggregate becomes.** A move is refused if the flag
would lie on the value or else not at a multiple of its size, and otherwise the aggregate gets the
least size that is needed, and the flag ends within it. A chain of moves is accepted if each of them
would be by itself. It leads to the layout whose flag lies at the last offset and whose size is the
least one needed for any of the moves, so that the order of the others makes no difference; and to
make the last one again changes nothing. -/
theorem moveFlag_grows (p : AggregateLayout) (hflag : 1 ≤ p.flagSize) (halign : 1 ≤ p.align) :
    (∀ width offset,
      (p.moveFlag width offset = .error (.overlappingFlag width offset) ↔
        offset < p.valueSize) ∧
      (p.moveFlag width offset = .error (.misalignedFlag width offset p.flagSize) ↔
        p.valueSize ≤ offset ∧ ¬ p.flagSize ∣ offset) ∧
      ((∃ q, p.moveFlag width offset = .ok q) ↔ p.valueSize ≤ offset ∧ p.flagSize ∣ offset) ∧
      ∀ q, p.moveFlag width offset = .ok q →
        p.MovedTo q [offset] offset ∧ q.extent = offset + p.flagSize ∧ q.extent ≤ q.size) ∧
    (∀ moves, (∃ q, p.moveFlags moves = .ok q) ↔ ∀ move ∈ moves, p.Admits move.2) ∧
    ∀ moves last q, p.moveFlags (moves ++ [last]) = .ok q →
      p.MovedTo q ((moves ++ [last]).map Prod.snd) last.2 ∧
      q.extent = last.2 + p.flagSize ∧ q.extent ≤ q.size ∧
      (∀ moves', moves'.Perm moves → p.moveFlags (moves' ++ [last]) = .ok q) ∧
      ∀ width, q.moveFlag width last.2 = .ok q := by
  refine ⟨fun width offset => ?_, exists_moveFlags_iff hflag halign, fun moves last q hq => ?_⟩
  · obtain ⟨hoverlap, hmisaligned⟩ := moveFlag_eq_error_iff hflag halign width offset
    have hexists := exists_moveFlag_iff hflag halign width offset
    refine ⟨hoverlap, hmisaligned, hexists, fun q hq => ?_⟩
    have hmoved := movedTo_of_moveFlag hflag halign hq
    exact ⟨hmoved, hmoved.extent_le (by simp) (hexists.1 ⟨q, hq⟩)⟩
  · have hmoved := movedTo_of_moveFlags hflag halign hq
    have hadmits := (exists_moveFlags_iff hflag halign _).1 ⟨q, hq⟩ last (by simp)
    obtain ⟨hextent, hsize⟩ := hmoved.extent_le (by simp) hadmits
    refine ⟨hmoved, hextent, hsize, fun moves' hperm => ?_, fun width => ?_⟩
    · refine moveFlags_congr hflag halign hq rfl ?_
      simp [hperm.mem_iff]
    · have hagain : p.moveFlags (moves ++ [last] ++ [(width, last.2)]) = .ok q := by
        refine moveFlags_congr hflag halign hq rfl ?_
        simp
      obtain ⟨q', hq', hlast⟩ := moveFlags_concat_eq_ok.1 hagain
      cases hq.symm.trans hq'
      exact hlast

/-- An aggregate of six-byte alignment whose flag is moved to and fro. -/
theorem moveFlag_grows_toAndFro :
    moveFlags ⟨2, 4, 4, 7, 6⟩ [(16, 20), (16, 4), (16, 8)] = .ok ⟨2, 8, 4, 24, 6⟩ ∧
      moveFlags ⟨2, 4, 4, 7, 6⟩ [(16, 4), (16, 20), (16, 8)] = .ok ⟨2, 8, 4, 24, 6⟩ ∧
      moveFlag ⟨2, 8, 4, 24, 6⟩ 16 8 = .ok ⟨2, 8, 4, 24, 6⟩ := by
  obtain ⟨-, -, hchain⟩ := moveFlag_grows ⟨2, 4, 4, 7, 6⟩ (by decide) (by decide)
  have h : moveFlags ⟨2, 4, 4, 7, 6⟩ ([(16, 20), (16, 4)] ++ [(16, 8)]) =
      .ok ⟨2, 8, 4, 24, 6⟩ := rfl
  obtain ⟨-, -, -, horder, hagain⟩ := hchain _ _ _ h
  exact ⟨h, horder [(16, 4), (16, 20)] (.swap _ _ _), hagain 16⟩

end AggregateLayout

end FixedInt
