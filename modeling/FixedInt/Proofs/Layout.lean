import FixedInt.Evaluator
import FixedInt.Proofs.Action
import Mathlib.Order.Bounds.Basic
import Mathlib.Tactic.ByContra
import Mathlib.Tactic.SplitIfs

/-!
Layouts as they are kept and computed. A table that keeps layouts answers like one that computes
each of them anew, and the slots that come of an aggregate are given by the offset of its flag.
-/

namespace FixedInt

/-! ### Keeping layouts -/

namespace LayoutTable

/-- What is kept is what would be computed now. -/
def Coherent (t : LayoutTable) : Prop :=
  ∀ width p, t.kept.lookup width = some p → t.compute width = .ok p

lemma coherent_new (target : Target) (flag : FlagStorage) : (new target flag).Coherent := by
  intro width p h
  cases h

lemma lookup_cons_of_ne {α : Type} {v w : Nat} (h : v ≠ w) (a : α) (l : List (Nat × α)) :
    ((w, a) :: l).lookup v = l.lookup v := by
  rw [List.lookup_cons, beq_eq_false_iff_ne.2 h]

lemma lookup_filter_ne {α : Type} (l : List (Nat × α)) (v w : Nat) :
    (l.filter (·.1 != w)).lookup v = if v = w then none else l.lookup v := by
  induction l with
  | nil => simp
  | cons e l ih => grind

lemma compute_pin_of_ne {t : LayoutTable} {v w : Nat} (h : v ≠ w) (offset : Nat) :
    (t.pin w offset).compute v = t.compute v := by
  unfold compute pin
  rw [lookup_cons_of_ne h]

/-- Pinning a flag drops the only layout that changes. -/
theorem Coherent.pin {t : LayoutTable} (ht : t.Coherent) (width offset : Nat) :
    (t.pin width offset).Coherent := by
  intro v p h
  rw [LayoutTable.pin, lookup_filter_ne] at h
  by_cases hv : v = width
  · simp [hv] at h
  · rw [if_neg hv] at h
    rw [compute_pin_of_ne hv]
    exact ht v p h

/-- What is computed is the aggregate of the C types, or that aggregate with its flag moved. -/
lemma ofTypes_of_compute {t : LayoutTable} {width : Nat} {p : AggregateLayout}
    (h : t.compute width = .ok p) :
    ∃ value, CType.ofValueWidth width = .ok value ∧
      let p₀ := AggregateLayout.ofTypes (t.target.typeLayout value)
        (t.target.typeLayout t.flagStorage.cType)
      p = p₀ ∨ ∃ offset, p₀.moveFlag width offset = .ok p := by
  obtain ⟨p₀, hp₀, h⟩ := Except.bind_eq_ok.1 h
  obtain ⟨value, hvalue, hp₀⟩ := Except.bind_eq_ok.1 hp₀
  cases hp₀
  refine ⟨value, hvalue, ?_⟩
  split at h
  · exact Or.inr ⟨_, h⟩
  · cases h
    exact Or.inl rfl

lemma compute_keep (t : LayoutTable) (width : Nat) (p : AggregateLayout) :
    (t.keep width p).compute = t.compute := rfl

theorem Coherent.keep {t : LayoutTable} (ht : t.Coherent) {width : Nat} {p : AggregateLayout}
    (hp : t.compute width = .ok p) : (t.keep width p).Coherent := by
  intro v q h
  rw [compute_keep]
  by_cases hv : v = width
  · subst hv
    simp only [LayoutTable.keep, List.lookup_cons_self, Option.some.injEq] at h
    exact h ▸ hp
  · rw [LayoutTable.keep, lookup_cons_of_ne hv] at h
    exact ht v q h

/-- What a request does: it answers what was kept, or else computes, keeps and records. -/
theorem layout_run (width : Nat) (t : LayoutTable) :
    (layout width).run t =
      match t.kept.lookup width with
      | some p => ⟨.ok p, t, []⟩
      | none =>
        match t.compute width with
        | .ok p => ⟨.ok p, t.keep width p, [.aggregate width p]⟩
        | .error e => ⟨.error e, t, []⟩ := by
  rw [layout, Action.run_get_bind]
  cases t.kept.lookup width with
  | some p => rfl
  | none =>
    simp only []
    cases t.compute width <;> rfl

/-- **Asking for a layout computes it**, whether it was kept or not, and nothing that would be
computed changes. -/
theorem answers_layout (c : Nat → Except LayoutError AggregateLayout) (width : Nat) :
    (layout width).Answers (fun t => t.Coherent ∧ t.compute = c) (c width) := by
  rintro t ⟨ht, rfl⟩
  rw [layout_run]
  cases hk : t.kept.lookup width with
  | some p => exact ⟨(ht width p hk).symm, ht, rfl⟩
  | none =>
    simp only []
    cases hp : t.compute width with
    | ok p => exact ⟨rfl, ht.keep hp, rfl⟩
    | error e => exact ⟨rfl, ht, rfl⟩

/-- The four layouts are those computed, or the failure of the smallest width that has none. -/
theorem answers_allLayouts (c : Nat → Except LayoutError AggregateLayout) :
    allLayouts.Answers (fun t => t.Coherent ∧ t.compute = c) (PerWidth.ofFnM fun w => c w.bits) :=
  PerWidth.answers_ofFnM fun w => answers_layout c w.bits

end LayoutTable

/-! ### Rounding up -/

lemma self_le_roundUp (value align : Nat) : value ≤ roundUp value align := by
  unfold roundUp
  split_ifs with h
  · exact le_refl _
  · have hmod := Nat.mod_lt (value + (align - 1)) (by omega : align > 0)
    have hdiv := Nat.div_add_mod (value + (align - 1)) align
    rw [Nat.mul_comm] at hdiv
    omega

lemma dvd_roundUp {align : Nat} (h : 1 ≤ align) (value : Nat) : align ∣ roundUp value align := by
  unfold roundUp
  split_ifs with h1
  · obtain rfl : align = 1 := by omega
    exact Nat.one_dvd value
  · exact Nat.dvd_mul_left align _

/-- No multiple of the alignment lies between a number and what it is rounded up to. -/
lemma roundUp_le {value align n : Nat} (hle : value ≤ n) (hmod : n % align = 0) :
    roundUp value align ≤ n := by
  rw [roundUp]
  split_ifs with h
  · exact hle
  · obtain ⟨k, rfl⟩ := Nat.dvd_of_mod_eq_zero hmod
    have hlt : (value + (align - 1)) / align < k + 1 := by
      rw [Nat.div_lt_iff_lt_mul (by omega), Nat.mul_comm, Nat.mul_add]
      omega
    rw [Nat.mul_comm align k]
    exact Nat.mul_le_mul_right align (Nat.le_of_lt_succ hlt)

/-! ### Slots by the offset of the flag -/

/-- The width of an integer that fills the flag. -/
def FlagStorage.width : FlagStorage → Width
  | oneByte => .w8
  | fourBytes => .w32

lemma FlagStorage.bytes_width (flag : FlagStorage) : flag.width.bytes = flag.bytes := by
  cases flag <;> rfl

/-- A flag may lie at the offset: behind the value, and at a multiple of its size. -/
def FlagStorage.Allows (flag : FlagStorage) (w : Width) (offset : Nat) : Prop :=
  w.bytes ≤ offset ∧ offset % flag.bytes = 0

/-- Why an offset is refused. To lie on the value comes before lying askew. -/
def FlagStorage.refusal (flag : FlagStorage) (w : Width) (offset : Nat) : LayoutError :=
  if offset < w.bytes then .overlappingFlag w.bits offset
  else .misalignedFlag w.bits offset flag.bytes

/-- Rounding up the size of the value gives the least offset at which the flag may lie. -/
lemma isLeast_roundUp (w : Width) (flag : FlagStorage) :
    IsLeast {n | flag.Allows w n} (roundUp w.bytes flag.bytes) :=
  ⟨⟨self_le_roundUp _ _, by cases w <;> cases flag <;> rfl⟩, fun _ h => roundUp_le h.1 h.2⟩

namespace ResultSlots

/-- The slots for a width whose flag lies at an offset. -/
def flagAt (flag : FlagStorage) (w : Width) (offset : Nat) : ResultSlots where
  width := w
  flagOffset := offset
  flagWidth := flag.width
  extent := offset + flag.bytes

/-- The slots for a width whose flag is moved to an offset or follows the value, aligned to its
size. -/
def place (flag : FlagStorage) (w : Width) : Option Nat → Except EvalError ResultSlots
  | none => .ok (flagAt flag w (roundUp w.bytes flag.bytes))
  | some offset =>
    if offset < w.bytes then .error (.layout (.overlappingFlag w.bits offset))
    else if offset % flag.bytes ≠ 0 then
      .error (.layout (.misalignedFlag w.bits offset flag.bytes))
    else .ok (flagAt flag w offset)

section Place

variable {flag : FlagStorage} {w : Width}

lemma place_of_allows {n : Nat} (h : flag.Allows w n) :
    place flag w (some n) = .ok (flagAt flag w n) := by
  rw [place, if_neg (by have := h.1; omega), if_neg (by rw [not_not]; exact h.2)]

lemma place_of_refused {n : Nat} (h : ¬ flag.Allows w n) :
    place flag w (some n) = .error (.layout (flag.refusal w n)) := by
  rw [place, FlagStorage.refusal]
  split_ifs with h1 h2
  · rfl
  · rfl
  · exact absurd ⟨Nat.le_of_not_lt h1, not_not.1 h2⟩ h

/-- A refused offset is named together with the width. -/
lemma place_of_not_allows {n : Nat} (h : ¬ flag.Allows w n) :
    place flag w (some n) = .error (.layout (.overlappingFlag w.bits n)) ∨
      place flag w (some n) = .error (.layout (.misalignedFlag w.bits n flag.bytes)) := by
  rw [place_of_refused h, FlagStorage.refusal]
  split_ifs
  · exact Or.inl rfl
  · exact Or.inr rfl

lemma place_eq_error {offset : Option Nat} {e : EvalError} (h : place flag w offset = .error e) :
    ∃ n, offset = some n ∧ ¬ flag.Allows w n := by
  cases offset with
  | none => cases h
  | some n =>
    refine ⟨n, rfl, fun ha => ?_⟩
    rw [place_of_allows ha] at h
    cases h

lemma exists_place_eq_ok {offset : Option Nat} (h : ∀ n ∈ offset, flag.Allows w n) :
    ∃ slots, place flag w offset = .ok slots := by
  cases offset with
  | none => exact ⟨_, rfl⟩
  | some n => exact ⟨_, place_of_allows (h n rfl)⟩

lemma allows_of_place_eq_ok {offset : Option Nat} {slots : ResultSlots}
    (h : place flag w offset = .ok slots) : ∀ n ∈ offset, flag.Allows w n := by
  rintro n rfl
  by_contra hn
  rcases place_of_not_allows hn with h' | h' <;> rw [h] at h' <;> cases h'

end Place

/-- The slots are for the width, the flag lies behind the value, and both lie in the extent. -/
structure Sound (slots : ResultSlots) (w : Width) : Prop where
  width : slots.width = w
  value_le : w.bytes ≤ slots.flagOffset
  flag_le : slots.flagOffset + slots.flagWidth.bytes ≤ slots.extent

/-- The extent covers the value and the flag, whether these overlap or not. -/
structure Enclosed (slots : ResultSlots) : Prop where
  value_le : slots.width.bytes ≤ slots.extent
  flag_le : slots.flagOffset + slots.flagWidth.bytes ≤ slots.extent

lemma Sound.enclosed {slots : ResultSlots} {w : Width} (h : slots.Sound w) : slots.Enclosed where
  value_le := by
    have hvalue := h.value_le
    have hflag := h.flag_le
    rw [h.width]
    omega
  flag_le := h.flag_le

lemma sound_flagAt {flag : FlagStorage} {w : Width} {offset : Nat} (h : w.bytes ≤ offset) :
    (flagAt flag w offset).Sound w := by
  have hbytes := flag.bytes_width
  exact ⟨rfl, h, by simp only [flagAt]; omega⟩

lemma exists_flagAt_of_place {flag : FlagStorage} {w : Width} {offset : Option Nat}
    {slots : ResultSlots} (h : place flag w offset = .ok slots) :
    ∃ n, w.bytes ≤ n ∧ slots = flagAt flag w n := by
  cases offset with
  | none =>
    cases h
    exact ⟨_, self_le_roundUp _ _, rfl⟩
  | some n =>
    have ha := allows_of_place_eq_ok h n rfl
    rw [place_of_allows ha] at h
    cases h
    exact ⟨n, ha.1, rfl⟩

/-- Slots that were placed keep value and flag apart. -/
theorem sound_of_place {flag : FlagStorage} {w : Width} {offset : Option Nat}
    {slots : ResultSlots} (h : place flag w offset = .ok slots) : slots.Sound w := by
  obtain ⟨n, hn, rfl⟩ := exists_flagAt_of_place h
  exact sound_flagAt hn

/-- Slots are made of an aggregate if its value is as wide as asked for and its flag as wide as some
integer, and then they are its own. -/
lemma ofAggregate_eq_ok {w : Width} {p : AggregateLayout} {slots : ResultSlots} :
    ofAggregate w p = .ok slots ↔
      ∃ v : Width, v.bytes = p.flagSize ∧ p.valueSize = w.bytes ∧
        slots = ⟨w, p.flagOffset, v, p.extent⟩ := by
  have hwidth : ∀ v : Width, Width.ofBits? (p.flagSize * 8) = some v ↔ v.bytes = p.flagSize := by
    intro v
    rw [Width.ofBits?_eq_some_iff]
    cases v <;> simp only [Width.bytes, Width.bits] <;> omega
  simp only [ofAggregate, ← hwidth]
  cases Width.ofBits? (p.flagSize * 8) with
  | none => simp
  | some v => by_cases hv : p.valueSize = w.bytes <;> simp [hv, eq_comm]

/-- An aggregate whose flag lies behind its value gives sound slots. -/
lemma sound_of_ofAggregate {w : Width} {p : AggregateLayout} {slots : ResultSlots}
    (h : ofAggregate w p = .ok slots) (hp : p.valueSize ≤ p.flagOffset) : slots.Sound w := by
  obtain ⟨v, hv, hsize, rfl⟩ := ofAggregate_eq_ok.1 h
  refine ⟨rfl, hsize ▸ hp, ?_⟩
  simp only [AggregateLayout.extent, hv]
  omega

end ResultSlots

namespace AggregateLayout

/-- A flag that could be moved lies behind the value, and only its offset and the size change. -/
lemma of_moveFlag_eq_ok {p q : AggregateLayout} {width offset : Nat}
    (h : p.moveFlag width offset = .ok q) :
    p.valueSize ≤ offset ∧ q = { p with
      flagOffset := offset
      size := roundUp (max (offset + p.flagSize) p.size) p.align } := by
  unfold moveFlag at h
  split_ifs at h with hvalue hempty halign
  cases h
  exact ⟨Nat.le_of_not_lt hvalue, rfl⟩

/-- An aggregate of a value of the width and a flag right behind it, aligned to its size. -/
structure IsNatural (p : AggregateLayout) (flag : FlagStorage) (w : Width) : Prop where
  valueSize : p.valueSize = w.bytes
  flagSize : p.flagSize = flag.bytes
  flagOffset : p.flagOffset = roundUp w.bytes flag.bytes

/-- The layout with its flag moved, if there is an offset for it. -/
def moved (p : AggregateLayout) (w : Width) : Option Nat → Except LayoutError AggregateLayout
  | none => .ok p
  | some offset => p.moveFlag w.bits offset

lemma ofAggregate_eq {p : AggregateLayout} {flag : FlagStorage} {w : Width}
    (hv : p.valueSize = w.bytes) (hf : p.flagSize = flag.bytes) (ho : w.bytes ≤ p.flagOffset) :
    ResultSlots.ofAggregate w p = .ok (.flagAt flag w p.flagOffset) := by
  have hextent : p.extent = p.flagOffset + flag.bytes := by
    rw [extent, hf]
    omega
  refine ResultSlots.ofAggregate_eq_ok.2 ⟨flag.width, hf ▸ flag.bytes_width, hv, ?_⟩
  rw [hextent, ResultSlots.flagAt]

lemma moveFlag_eq {p : AggregateLayout} {flag : FlagStorage} {w : Width}
    (hp : p.IsNatural flag w) (offset : Nat) :
    p.moveFlag w.bits offset =
      if offset < w.bytes then .error (.overlappingFlag w.bits offset)
      else if offset % flag.bytes ≠ 0 then .error (.misalignedFlag w.bits offset flag.bytes)
      else .ok { p with
        flagOffset := offset
        size := roundUp (max (offset + flag.bytes) p.size) p.align } := by
  have h0 : flag.bytes ≠ 0 := by cases flag <;> decide
  rw [moveFlag, hp.valueSize, hp.flagSize, if_neg h0]

/-- The slots of an aggregate whose flag was moved depend on the offset alone. -/
theorem ofAggregate_moved {p : AggregateLayout} {flag : FlagStorage} {w : Width}
    (hp : p.IsNatural flag w) (offset : Option Nat) :
    ((p.moved w offset).mapError .layout >>= ResultSlots.ofAggregate w) =
      ResultSlots.place flag w offset := by
  cases offset with
  | none =>
    change ResultSlots.ofAggregate w p = _
    rw [ofAggregate_eq hp.valueSize hp.flagSize (hp.flagOffset ▸ self_le_roundUp _ _),
      hp.flagOffset, ResultSlots.place]
  | some offset =>
    rw [moved, moveFlag_eq hp, ResultSlots.place]
    split_ifs with h1 h2
    · rfl
    · rfl
    · exact ofAggregate_eq hp.valueSize hp.flagSize (Nat.le_of_not_lt h1)

/-- No aggregate whose flag could be moved is refused afterwards. -/
lemma ofAggregate_moved_ok {p q : AggregateLayout} {flag : FlagStorage} {w : Width}
    (hp : p.IsNatural flag w) {offset : Option Nat} (hq : p.moved w offset = .ok q) :
    ∃ slots, ResultSlots.ofAggregate w q = .ok slots := by
  cases offset with
  | none =>
    cases hq
    exact ⟨_, ofAggregate_eq hp.valueSize hp.flagSize (hp.flagOffset ▸ self_le_roundUp _ _)⟩
  | some offset =>
    rw [moved, moveFlag_eq hp] at hq
    split_ifs at hq with h1 h2
    cases hq
    exact ⟨_, ofAggregate_eq hp.valueSize hp.flagSize (Nat.le_of_not_lt h1)⟩

lemma isNatural_ofWidth (flag : FlagStorage) (w : Width) :
    ∃ p, ofWidth .host flag w.bits = .ok p ∧ p.IsNatural flag w := by
  cases w <;> cases flag <;> exact ⟨_, rfl, ⟨rfl, rfl, rfl⟩⟩

end AggregateLayout

end FixedInt
