import FixedInt.Settings.Basic
import Mathlib.Tactic.Lemma
import Mathlib.Order.Lattice.Nat

/-!
The offsets that settings give for a width. Several keys can stand for one width, such as `16` and
`+16`; the sorted overrides begin with the smallest of their offsets and end with the largest.
-/

namespace FixedInt

namespace Settings

/-- The offsets of all keys that stand for a width. -/
def offsetsOf (s : Settings) (w : Width) : List Nat :=
  s.flagOffsets.entries.filterMap fun e => if keyWidth? e.1 = some w then some e.2 else none

/-- The smallest offset that a key of the width gives. -/
def smallest? (s : Settings) (w : Width) : Option Nat := (s.offsetsOf w).min?

/-- The largest offset that a key of the width gives. -/
def largest? (s : Settings) (w : Width) : Option Nat := (s.offsetsOf w).max?

/-- Every key stands for a width. -/
def KeysValid (s : Settings) : Prop := ∀ e ∈ s.flagOffsets.entries, keyWidth? e.1 ≠ none

instance (s : Settings) : Decidable s.KeysValid := by unfold KeysValid; infer_instance

/-! ### Reading the keys -/

lemma override_eq_ok {e : String × Nat} {w : Width} (h : keyWidth? e.1 = some w) :
    override e = .ok (w, e.2) := by
  rw [override, h]

lemma override_eq_error {e : String × Nat} (h : keyWidth? e.1 = none) :
    override e = .error (.invalidKey e.1) := by
  rw [override, h]

/-- If every key stands for a width, nothing is lost. -/
lemma mapM_override_of_valid {es : List (String × Nat)} (h : ∀ e ∈ es, keyWidth? e.1 ≠ none) :
    es.mapM override = .ok (es.filterMap fun e => (keyWidth? e.1).map fun w => (w, e.2)) := by
  induction es with
  | nil => rfl
  | cons e es ih =>
    obtain ⟨w, hw⟩ := Option.ne_none_iff_exists'.1 (h e List.mem_cons_self)
    rw [List.mapM_cons, override_eq_ok hw, ih fun e he => h e (List.mem_cons_of_mem _ he)]
    simp [hw]
    rfl

/-- A key that stands for no width is named. -/
lemma mapM_override_of_invalid {es : List (String × Nat)} (h : ¬ ∀ e ∈ es, keyWidth? e.1 ≠ none) :
    ∃ e ∈ es, keyWidth? e.1 = none ∧ es.mapM override = .error (.invalidKey e.1) := by
  induction es with
  | nil => simp at h
  | cons e es ih =>
    cases hw : keyWidth? e.1 with
    | none =>
      refine ⟨e, List.mem_cons_self, hw, ?_⟩
      rw [List.mapM_cons, override_eq_error hw]
      rfl
    | some w =>
      have hes : ¬ ∀ e ∈ es, keyWidth? e.1 ≠ none := by
        intro hall
        refine h fun e' he' => ?_
        rcases List.mem_cons.1 he' with rfl | he'
        · simp [hw]
        · exact hall e' he'
      obtain ⟨e', he', hw', hm⟩ := ih hes
      refine ⟨e', List.mem_cons_of_mem _ he', hw', ?_⟩
      rw [List.mapM_cons, override_eq_ok hw, hm]
      rfl

/-- All overrides in the order of the entries. -/
def unsorted (s : Settings) : List Override :=
  s.flagOffsets.entries.filterMap fun e => (keyWidth? e.1).map fun w => (w, e.2)

theorem overrides_of_valid {s : Settings} (h : s.KeysValid) :
    s.overrides = .ok (s.unsorted.mergeSort Override.le) := by
  rw [overrides, mapM_override_of_valid h]
  rfl

theorem overrides_of_invalid {s : Settings} (h : ¬ s.KeysValid) :
    ∃ e ∈ s.flagOffsets.entries, keyWidth? e.1 = none ∧
      s.overrides = .error (.invalidKey e.1) := by
  obtain ⟨e, he, hw, hm⟩ := mapM_override_of_invalid h
  refine ⟨e, he, hw, ?_⟩
  rw [overrides, hm]
  rfl

lemma exists_overrides_iff (s : Settings) : (∃ os, s.overrides = .ok os) ↔ s.KeysValid := by
  constructor
  · rintro ⟨os, hos⟩
    by_contra hs
    obtain ⟨e, -, -, he⟩ := overrides_of_invalid hs
    rw [he] at hos
    cases hos
  · exact fun hs => ⟨_, overrides_of_valid hs⟩

lemma keysValid_congr {s t : Settings} (h : s.Same t) : s.KeysValid ↔ t.KeysValid := by
  simp only [KeysValid, h.2.1.mem_iff]

/-! ### The order of the overrides -/

lemma override_le_iff (a b : Override) :
    a.le b = true ↔ a.1.bits < b.1.bits ∨ a.1 = b.1 ∧ a.2 ≤ b.2 := by
  simp [Override.le]

lemma override_le_trans (a b c : Override) (h1 : a.le b) (h2 : b.le c) : a.le c := by
  rw [override_le_iff] at *
  rcases h1 with h1 | ⟨h1, h1'⟩ <;> rcases h2 with h2 | ⟨h2, h2'⟩
  · exact Or.inl (by omega)
  · exact Or.inl (h2 ▸ h1)
  · exact Or.inl (h1 ▸ h2)
  · exact Or.inr ⟨h1.trans h2, by omega⟩

lemma override_le_total (a b : Override) : a.le b || b.le a := by
  rw [Bool.or_eq_true, override_le_iff, override_le_iff]
  rcases Nat.lt_trichotomy a.1.bits b.1.bits with h | h | h
  · exact Or.inl (Or.inl h)
  · rcases Nat.le_total a.2 b.2 with h' | h'
    · exact Or.inl (Or.inr ⟨Width.bits_inj.1 h, h'⟩)
    · exact Or.inr (Or.inr ⟨(Width.bits_inj.1 h).symm, h'⟩)
  · exact Or.inr (Or.inl h)

/-- The offset of an override of the width. -/
def offsetAt (w : Width) (o : Override) : Option Nat := if o.1 = w then some o.2 else none

lemma lookup_eq_head? (os : List Override) (w : Width) :
    os.lookup w = (os.filterMap (offsetAt w)).head? := by
  rw [List.head?_filterMap]
  induction os with
  | nil => rfl
  | cons o os ih =>
    by_cases h : o.1 = w
    · subst h
      rw [List.lookup_cons, beq_self_eq_true]
      simp [offsetAt]
    · rw [List.lookup_cons, beq_eq_false_iff_ne.2 (Ne.symm h)]
      simp [offsetAt, h, ih]

lemma offsetAt_eq_some {w : Width} {o : Override} {n : Nat} :
    offsetAt w o = some n ↔ o.1 = w ∧ o.2 = n := by
  unfold offsetAt
  split <;> simp_all

/-- Within a width the sorted overrides ascend. -/
lemma offsets_pairwise (os : List Override) (w : Width) :
    ((os.mergeSort Override.le).filterMap (offsetAt w)).Pairwise (· ≤ ·) := by
  rw [List.pairwise_filterMap]
  refine (List.pairwise_mergeSort override_le_trans override_le_total os).imp ?_
  intro a b hab m hm n hn
  rw [offsetAt_eq_some] at hm hn
  rw [override_le_iff, hm.1, hn.1, hm.2, hn.2] at hab
  omega

lemma min?_eq_of_perm {l l' : List Nat} (h : l.Perm l') : l.min? = l'.min? := by
  ext n
  simp only [List.min?_eq_some_iff, h.mem_iff]

lemma max?_eq_of_perm {l l' : List Nat} (h : l.Perm l') : l.max? = l'.max? := by
  ext n
  simp only [List.max?_eq_some_iff, h.mem_iff]

lemma unsorted_filterMap (s : Settings) (w : Width) :
    s.unsorted.filterMap (offsetAt w) = s.offsetsOf w := by
  rw [unsorted, List.filterMap_filterMap, offsetsOf]
  refine List.filterMap_congr fun e _ => ?_
  cases keyWidth? e.1 with
  | none => simp
  | some v => simp [offsetAt]

/-- **The first override of a width has its smallest offset and the last one its largest.** -/
theorem lookup_sorted (s : Settings) (w : Width) :
    (s.unsorted.mergeSort Override.le).lookup w = s.smallest? w ∧
      (s.unsorted.mergeSort Override.le).reverse.lookup w = s.largest? w := by
  have hperm : ((s.unsorted.mergeSort Override.le).filterMap (offsetAt w)).Perm
      (s.offsetsOf w) := by
    rw [← unsorted_filterMap]
    exact (List.mergeSort_perm _ _).filterMap _
  have hsorted := offsets_pairwise s.unsorted w
  rw [lookup_eq_head?, lookup_eq_head?, List.filterMap_reverse]
  refine ⟨?_, ?_⟩
  · rw [smallest?, ← min?_eq_of_perm hperm]
    exact (List.min?_eq_head? (hsorted.imp fun h => Nat.min_eq_left h)).symm
  · rw [largest?, ← max?_eq_of_perm ((List.reverse_perm _).trans hperm)]
    refine (List.max?_eq_head? ?_).symm
    rw [List.pairwise_reverse]
    exact hsorted.imp fun h => Nat.max_eq_left h

/-- A width has a smallest offset exactly when it has a largest one. -/
lemma smallest?_eq_none_iff (s : Settings) (w : Width) :
    s.smallest? w = none ↔ s.largest? w = none := by
  rw [smallest?, largest?, List.min?_eq_none_iff, List.max?_eq_none_iff]

end Settings

end FixedInt
