import FixedInt.Proofs.Construction

/-!
Layouts in 64-bit words. A machine adds up sizes and offsets in words, where a sum that is too large
wraps, unless the program is built to stop there. As long as no sum wraps, layouts in words are those
in numbers; where the end of the flag does, the extent misses the flag, and that is the only case in
which it misses anything.
-/

namespace FixedInt

/-! ### Layouts -/

/-- The layout of an aggregate in words. -/
structure WordLayout where
  valueSize : UInt64
  flagOffset : UInt64
  flagSize : UInt64
  size : UInt64
  align : UInt64

namespace WordLayout

/-- The quotient is rounded up first, so that the product alone may wrap. -/
def roundUp (value align : UInt64) : UInt64 :=
  if align ≤ 1 then value
  else (if value % align = 0 then value / align else value / align + 1) * align

/-- The number of bytes from the start through the end of value and flag, if that does not wrap. -/
def extent (p : WordLayout) : UInt64 := max p.valueSize (p.flagOffset + p.flagSize)

/-- Moves the flag. -/
def moveFlag (p : WordLayout) (width : Nat) (offset : UInt64) : Except LayoutError WordLayout :=
  if offset < p.valueSize then .error (.overlappingFlag width offset.toNat)
  else if p.flagSize = 0 then .error (.emptyFlag width)
  else if offset % p.flagSize ≠ 0 then
    .error (.misalignedFlag width offset.toNat p.flagSize.toNat)
  else .ok { p with
    flagOffset := offset
    size := roundUp (max (offset + p.flagSize) p.size) p.align }

/-- Moves the flag if there is an offset for it. -/
def moved (p : WordLayout) (w : Width) : Option UInt64 → Except LayoutError WordLayout
  | none => .ok p
  | some offset => p.moveFlag w.bits offset

/-- The places that the layout gives to a result. -/
def slots (w : Width) (p : WordLayout) : Except EvalError ResultSlots :=
  match Width.ofBits? (p.flagSize * 8).toNat with
  | none => .error (.unsupported (.flagSize w p.flagSize.toNat))
  | some flagWidth =>
    if p.valueSize.toNat = w.bytes then
      .ok { width := w, flagOffset := p.flagOffset.toNat, flagWidth, extent := p.extent.toNat }
    else .error (.unsupported (.valueSize w p.valueSize.toNat))

/-- The layout in numbers. -/
def numbers (p : WordLayout) : AggregateLayout where
  valueSize := p.valueSize.toNat
  flagOffset := p.flagOffset.toNat
  flagSize := p.flagSize.toNat
  size := p.size.toNat
  align := p.align.toNat

end WordLayout

/-! ### Slots -/

namespace ResultSlots

/-- The end of the flag is a word: the sum of its offset and its size does not wrap. -/
def EndsInWords (slots : ResultSlots) : Prop := slots.flagOffset + slots.flagWidth.bytes < 2 ^ 64

instance (slots : ResultSlots) : Decidable slots.EndsInWords :=
  inferInstanceAs (Decidable (_ < _))

/-- The same places, with the extent that a machine adds up in words. -/
def inWords (slots : ResultSlots) : ResultSlots :=
  { slots with
    extent := (max (.ofNat slots.width.bytes)
      (.ofNat slots.flagOffset + .ofNat slots.flagWidth.bytes) : UInt64).toNat }

variable {slots : ResultSlots} {w : Width}

lemma extent_inWords : slots.inWords.extent =
    max slots.width.bytes ((slots.flagOffset + slots.flagWidth.bytes) % 2 ^ 64) := by
  have hwidth : slots.width.bytes % 2 ^ 64 = slots.width.bytes := by
    cases slots.width <;> rfl
  simp only [inWords, UInt64.toNat_max, UInt64.toNat_add, UInt64.toNat_ofNat', Nat.add_mod_mod,
    Nat.mod_add_mod, hwidth]

lemma inWords_eq (h : slots.EndsInWords)
    (he : slots.extent = max slots.width.bytes (slots.flagOffset + slots.flagWidth.bytes)) :
    slots.inWords = slots := by
  have hextent : slots.inWords.extent = slots.extent := by
    rw [extent_inWords, Nat.mod_eq_of_lt h, he]
  exact congrArg (fun n => { slots with extent := n }) hextent

/-- Slots with the flag behind the value are sound in words exactly if the flag ends in words. -/
lemma sound_inWords_iff (hw : slots.width = w) (hv : w.bytes ≤ slots.flagOffset) :
    slots.inWords.Sound w ↔ slots.EndsInWords := by
  have hextent := slots.extent_inWords
  have hflag : 0 < slots.flagWidth.bytes := by cases slots.flagWidth <;> decide
  constructor
  · intro h
    have hle : slots.flagOffset + slots.flagWidth.bytes ≤ slots.inWords.extent := h.flag_le
    unfold EndsInWords
    rw [hw] at hextent
    omega
  · intro h
    refine ⟨hw, hv, ?_⟩
    change slots.flagOffset + slots.flagWidth.bytes ≤ _
    rw [hextent, Nat.mod_eq_of_lt h]
    exact le_max_right _ _

end ResultSlots

/-! ### Words against numbers -/

lemma roundUp_eq_mul {value align : Nat} (h : 1 < align) : roundUp value align =
    (if value % align = 0 then value / align else value / align + 1) * align := by
  have hdiv := Nat.div_add_mod' value align
  have hmod := Nat.mod_lt value (Nat.zero_lt_of_lt h)
  rw [roundUp, if_neg (by omega)]
  congr 1
  split_ifs with hr
  · rw [Nat.div_eq_iff (by omega)]
    omega
  · rw [Nat.div_eq_iff (by omega), Nat.succ_mul]
    omega

namespace WordLayout

variable {p : WordLayout} {w : Width}

lemma mod_eq_zero_iff (a b : UInt64) : a % b = 0 ↔ a.toNat % b.toNat = 0 := by
  rw [← UInt64.toNat_inj, UInt64.toNat_mod]
  rfl

lemma toNat_roundUp {value align : UInt64}
    (h : FixedInt.roundUp value.toNat align.toNat < 2 ^ 64) :
    (roundUp value align).toNat = FixedInt.roundUp value.toNat align.toNat := by
  by_cases ha : align ≤ 1
  · have ha' : align.toNat ≤ 1 := UInt64.le_iff_toNat_le.1 ha
    rw [roundUp, if_pos ha, FixedInt.roundUp, if_pos ha']
  · have ha' : 1 < align.toNat := by
      rw [UInt64.le_iff_toNat_le] at ha
      exact not_le.1 ha
    -- the quotient by two or more leaves room for one
    have hroom : value.toNat / align.toNat + 1 < 2 ^ 64 := by
      have hle : value.toNat / align.toNat ≤ value.toNat / 2 := Nat.div_le_div_left ha' (by decide)
      have hlt := value.toNat_lt
      omega
    have hquotient : (if value % align = 0 then value / align else value / align + 1).toNat =
        if value.toNat % align.toNat = 0 then value.toNat / align.toNat
        else value.toNat / align.toNat + 1 := by
      simp only [mod_eq_zero_iff]
      split_ifs
      · exact UInt64.toNat_div _ _
      · rw [UInt64.toNat_add, UInt64.toNat_div]
        exact Nat.mod_eq_of_lt hroom
    rw [roundUp, if_neg ha, UInt64.toNat_mul, hquotient, ← roundUp_eq_mul ha', Nat.mod_eq_of_lt h]

/-- Flags are moved under the same conditions and refused with the same errors. -/
lemma moveFlag_eq (p : WordLayout) (width : Nat) (offset : UInt64) :
    p.moveFlag width offset = (p.numbers.moveFlag width offset.toNat).map fun _ =>
      { p with
        flagOffset := offset
        size := roundUp (max (offset + p.flagSize) p.size) p.align } := by
  have hlt : offset < p.valueSize ↔ offset.toNat < p.numbers.valueSize := UInt64.lt_iff_toNat_lt
  have hzero : p.flagSize = 0 ↔ p.numbers.flagSize = 0 := UInt64.toNat_inj.symm
  have hmod : offset % p.flagSize = 0 ↔ offset.toNat % p.numbers.flagSize = 0 :=
    mod_eq_zero_iff offset p.flagSize
  simp only [moveFlag, AggregateLayout.moveFlag, hlt, hzero, ne_eq, hmod]
  split_ifs <;> rfl

/-- **Flags are moved in words as in numbers** if the aggregate does not grow past the words. -/
theorem map_numbers_moveFlag {width : Nat} {offset : UInt64}
    (h : FixedInt.roundUp (max (offset.toNat + p.flagSize.toNat) p.size.toNat) p.align.toNat <
      2 ^ 64) :
    (p.moveFlag width offset).map numbers = p.numbers.moveFlag width offset.toNat := by
  have hsum : offset.toNat + p.flagSize.toNat < 2 ^ 64 :=
    (le_max_left _ _).trans_lt ((self_le_roundUp _ _).trans_lt h)
  have hend : (max (offset + p.flagSize) p.size).toNat =
      max (offset.toNat + p.flagSize.toNat) p.size.toNat := by
    rw [UInt64.toNat_max, UInt64.toNat_add, Nat.mod_eq_of_lt hsum]
  have hsize : (roundUp (max (offset + p.flagSize) p.size) p.align).toNat =
      FixedInt.roundUp (max (offset.toNat + p.flagSize.toNat) p.size.toNat) p.align.toNat := by
    rw [toNat_roundUp (hend ▸ h), hend]
  rw [moveFlag_eq]
  cases hq : p.numbers.moveFlag width offset.toNat with
  | error e => rfl
  | ok q =>
    obtain ⟨-, rfl⟩ := AggregateLayout.of_moveFlag_eq_ok hq
    change Except.ok _ = Except.ok _
    rw [numbers, hsize]
    rfl

/-- Slots are made of a layout in words if its value is as wide as asked for and the bits of its
flag, counted in words, are those of some integer. -/
lemma slots_eq_ok {slots : ResultSlots} :
    p.slots w = .ok slots ↔
      ∃ v : Width, v.bits = (p.flagSize * 8).toNat ∧ p.valueSize.toNat = w.bytes ∧
        slots = ⟨w, p.flagOffset.toNat, v, p.extent.toNat⟩ := by
  simp only [WordLayout.slots, ← Width.ofBits?_eq_some_iff]
  cases Width.ofBits? (p.flagSize * 8).toNat with
  | none => simp
  | some v => by_cases hv : p.valueSize.toNat = w.bytes <;> simp [hv, eq_comm]

lemma toNat_extent :
    p.extent.toNat = max p.valueSize.toNat ((p.flagOffset.toNat + p.flagSize.toNat) % 2 ^ 64) := by
  rw [extent, UInt64.toNat_max, UInt64.toNat_add]

/-- Slots are made in words as in numbers but for the extent, if the bits of the flag can be counted
in words. -/
theorem slots_eq (h : p.flagSize.toNat * 8 < 2 ^ 64) :
    p.slots w = (ResultSlots.ofAggregate w p.numbers).map ResultSlots.inWords := by
  have hbits : (p.flagSize * 8).toNat = p.numbers.flagSize * 8 := by
    rw [UInt64.toNat_mul]
    exact Nat.mod_eq_of_lt h
  rw [slots, ResultSlots.ofAggregate, hbits]
  cases hf : Width.ofBits? (p.numbers.flagSize * 8) with
  | none => rfl
  | some v =>
    have hflag : v.bytes = p.flagSize.toNat := by
      rw [Width.bytes, Width.ofBits?_eq_some_iff.1 hf]
      exact Nat.mul_div_cancel _ (by decide)
    change (if p.valueSize.toNat = w.bytes then _ else _) =
      Except.map _ (if p.valueSize.toNat = w.bytes then _ else _)
    split_ifs with hv
    · have hextent : p.extent = max (.ofNat w.bytes)
          (.ofNat p.flagOffset.toNat + .ofNat v.bytes) := by
        rw [← hv, hflag, UInt64.ofNat_toNat, UInt64.ofNat_toNat, UInt64.ofNat_toNat, extent]
      rw [hextent]
      rfl
    · rfl

/-- **Slots are made in words as in numbers** if neither the bits of the flag nor its end wrap. -/
theorem slots_eq_ofAggregate (h : p.flagSize.toNat * 8 < 2 ^ 64)
    (hsum : p.flagOffset.toNat + p.flagSize.toNat < 2 ^ 64) :
    p.slots w = ResultSlots.ofAggregate w p.numbers := by
  rw [slots_eq h]
  cases hr : ResultSlots.ofAggregate w p.numbers with
  | error e => rfl
  | ok slots =>
    obtain ⟨v, hv, hvalue, rfl⟩ := ResultSlots.ofAggregate_eq_ok.1 hr
    refine congrArg Except.ok (ResultSlots.inWords_eq ?_ ?_)
    · rw [ResultSlots.EndsInWords, hv]
      exact hsum
    · rw [AggregateLayout.extent, hv, hvalue]

/-- The slots of an aggregate of the host whose flag was moved, as a machine makes them. -/
theorem slots_moved {flag : FlagStorage} (hp : p.numbers.IsNatural flag w)
    (offset : Option UInt64) :
    ((p.moved w offset).mapError .layout >>= slots w) =
      (ResultSlots.place flag w (offset.map UInt64.toNat)).map ResultSlots.inWords := by
  have hflag : p.flagSize.toNat * 8 < 2 ^ 64 := by
    have hsize : p.flagSize.toNat = flag.bytes := hp.flagSize
    rw [hsize]
    cases flag <;> decide
  rw [← AggregateLayout.ofAggregate_moved hp]
  cases offset with
  | none => exact slots_eq hflag
  | some offset =>
    rw [moved, moveFlag_eq, Option.map_some, AggregateLayout.moved]
    cases hq : p.numbers.moveFlag w.bits offset.toNat with
    | error e => rfl
    | ok q =>
      -- slots do not depend on the size, in which alone the two layouts may differ
      obtain ⟨-, rfl⟩ := AggregateLayout.of_moveFlag_eq_ok hq
      exact slots_eq hflag

/-- **When a layout in words gives sound slots.** If the flag lies behind the value, the extent
covers both exactly if the end of the flag does not wrap. -/
theorem sound_slots_iff {slots : ResultSlots} (h : p.slots w = .ok slots)
    (hp : p.valueSize ≤ p.flagOffset) :
    slots.Sound w ↔ p.flagOffset.toNat + p.flagSize.toNat < 2 ^ 64 := by
  obtain ⟨v, hbits, hvalue, rfl⟩ := slots_eq_ok.1 h
  rw [UInt64.le_iff_toNat_le, hvalue] at hp
  have hoffset := p.flagOffset.toNat_lt
  have hsize := p.flagSize.toNat_lt
  have hextent := p.toNat_extent
  -- the flag that is stored is not larger than the size says, whether its bits wrapped or not
  have hpos : 0 < v.bytes ∧ v.bytes ≤ p.flagSize.toNat := by
    have h8 : v.bits = 8 * v.bytes ∧ 0 < v.bytes := by cases v <;> decide
    rw [UInt64.toNat_mul] at hbits
    change v.bits = p.flagSize.toNat * 8 % 2 ^ 64 at hbits
    omega
  constructor
  · intro hs
    have hle : p.flagOffset.toNat + v.bytes ≤ p.extent.toNat := hs.flag_le
    omega
  · intro hsum
    refine ⟨rfl, hp, ?_⟩
    change p.flagOffset.toNat + v.bytes ≤ p.extent.toNat
    omega

/-- A flag at the end of the words: only the value is covered. -/
example : slots .w8 ⟨1, 0xfffffffffffffffc, 4, 8, 4⟩ = .ok ⟨.w8, 2 ^ 64 - 4, .w32, 1⟩ := rfl

end WordLayout

/-! ### Slots of an evaluator -/

/-- **Evaluators made from settings, in words.** The slots for a width are sound exactly if their
flag ends in words, and then they are those in numbers. -/
theorem Evaluator.inWords_of_ofSettings {σ : Type} {s : Settings} {host : HostTarget} {m : σ}
    {e : Evaluator} (h : ((Setup.ofSettings s host).run m).result = .ok e) (w : Width) :
    ((e.slots.get w).inWords.Sound w ↔ (e.slots.get w).EndsInWords) ∧
      ((e.slots.get w).EndsInWords → (e.slots.get w).inWords = e.slots.get w) := by
  obtain ⟨offset, hplace⟩ := exists_place_of_ofSettings h w
  obtain ⟨n, hn, hslots⟩ := ResultSlots.exists_flagAt_of_place hplace
  rw [hslots]
  refine ⟨ResultSlots.sound_inWords_iff rfl hn, fun hend => ResultSlots.inWords_eq hend ?_⟩
  change n + s.flagStorage.bytes = max w.bytes (n + s.flagStorage.width.bytes)
  rw [FlagStorage.bytes_width]
  omega

end FixedInt
