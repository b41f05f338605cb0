import FixedInt.Proofs.LayoutHistory

/-!
Targets and the sizes that are meant. Every layout that a table gives, whatever was pinned and asked
for before, has a value and a flag of the sizes of their C types, with the flag behind the value. So
its sizes are those of the width and of the flag's storage, and slots are made from it, exactly if
the C types have these sizes on the target; an `int` of two bytes stands for four where it stores a
flag or a value.
-/

namespace FixedInt

/-! ### C types of values and flags -/

/-- The C type that stores a value of the width. -/
def Width.valueType : Width → CType
  | w8 => .char
  | w16 => .short
  | w32 => .int
  | w64 => .longLong

lemma CType.ofValueWidth_eq_ok {width : Nat} {c : CType} :
    ofValueWidth width = .ok c ↔ ∃ w : Width, w.bits = width ∧ w.valueType = c := by
  constructor
  · intro h
    unfold ofValueWidth at h
    split at h <;> cases h
    exacts [⟨.w8, rfl, rfl⟩, ⟨.w16, rfl, rfl⟩, ⟨.w32, rfl, rfl⟩, ⟨.w64, rfl, rfl⟩]
  · rintro ⟨w, rfl, rfl⟩
    cases w <;> rfl

namespace Target

/-- The targets of which the types are known. -/
def known : List Target := [x86_64Linux, i686Linux, i686Msvc, msp430, avr]

/-- On the target a value of the width has the bytes of the width, and a flag those that are meant
for it. -/
def Suits (t : Target) (flag : FlagStorage) (w : Width) : Prop :=
  (t.typeLayout w.valueType).size = w.bytes ∧ (t.typeLayout flag.cType).size = flag.bytes

instance (t : Target) (flag : FlagStorage) (w : Width) : Decidable (t.Suits flag w) :=
  inferInstanceAs (Decidable (_ ∧ _))

/-- It comes down to the size of an `int`, where one is stored at all. -/
lemma suits_iff_of_known {t : Target} (ht : t ∈ known) (flag : FlagStorage) (w : Width) :
    t.Suits flag w ↔ t.int.size = 4 ∨ flag = .oneByte ∧ w ≠ .w32 := by
  have hall : ∀ t ∈ known, t.Suits flag w ↔ t.int.size = 4 ∨ flag = .oneByte ∧ w ≠ .w32 := by
    cases flag <;> cases w <;> decide
  exact hall t ht

end Target

/-! ### Layouts with the sizes of a target -/

namespace AggregateLayout

/-- Value and flag have the sizes of their C types on the target, and the flag lies behind the
value. -/
structure IsFor (p : AggregateLayout) (t : Target) (flag : FlagStorage) (w : Width) : Prop where
  valueSize : p.valueSize = (t.typeLayout w.valueType).size
  flagSize : p.flagSize = (t.typeLayout flag.cType).size
  apart : p.valueSize ≤ p.flagOffset

/-- Value and flag have the sizes that are meant, the flag lies behind the value, and slots are made
from the layout. -/
structure IsMeant (p : AggregateLayout) (flag : FlagStorage) (w : Width) : Prop where
  valueSize : p.valueSize = w.bytes
  flagSize : p.flagSize = flag.bytes
  apart : p.valueSize ≤ p.flagOffset
  slots : ∃ slots, ResultSlots.ofAggregate w p = .ok slots

variable {p q : AggregateLayout} {t : Target} {flag : FlagStorage} {w : Width}

lemma isFor_ofTypes (t : Target) (flag : FlagStorage) (w : Width) :
    (ofTypes (t.typeLayout w.valueType) (t.typeLayout flag.cType)).IsFor t flag w :=
  ⟨rfl, rfl, self_le_roundUp _ _⟩

lemma IsFor.moveFlag (h : p.IsFor t flag w) {width offset : Nat}
    (hq : p.moveFlag width offset = .ok q) : q.IsFor t flag w := by
  obtain ⟨hvalue, rfl⟩ := of_moveFlag_eq_ok hq
  exact ⟨h.valueSize, h.flagSize, hvalue⟩

/-- Slots are made if the value is as wide as asked for, and the flag as wide as some integer. -/
lemma exists_ofAggregate_iff :
    (∃ slots, ResultSlots.ofAggregate w p = .ok slots) ↔
      p.valueSize = w.bytes ∧ ∃ v : Width, p.flagSize = v.bytes := by
  simp only [ResultSlots.ofAggregate_eq_ok]
  constructor
  · rintro ⟨slots, v, hf, hv, -⟩
    exact ⟨hv, v, hf.symm⟩
  · rintro ⟨hv, v, hf⟩
    exact ⟨_, v, hf.symm, hv, rfl⟩

/-- A layout for a target is what is meant if the target has the sizes that are meant. -/
theorem IsFor.isMeant_iff (h : p.IsFor t flag w) : p.IsMeant flag w ↔ t.Suits flag w := by
  rw [Target.Suits, ← h.valueSize, ← h.flagSize]
  constructor
  · intro hm
    exact ⟨hm.valueSize, hm.flagSize⟩
  · rintro ⟨hv, hf⟩
    exact ⟨hv, hf, h.apart,
      exists_ofAggregate_iff.2 ⟨hv, flag.width, hf.trans flag.bytes_width.symm⟩⟩

end AggregateLayout

/-! ### Layouts that are given -/

/-- Where a flag is pinned plays no part for the sizes. -/
lemma LayoutTable.isFor_of_compute {t : LayoutTable} {width : Nat} {p : AggregateLayout}
    (h : t.compute width = .ok p) :
    ∃ w : Width, w.bits = width ∧ p.IsFor t.target t.flagStorage w := by
  obtain ⟨value, hvalue, hp⟩ := ofTypes_of_compute h
  obtain ⟨w, hw, rfl⟩ := CType.ofValueWidth_eq_ok.1 hvalue
  have hfor := AggregateLayout.isFor_ofTypes t.target t.flagStorage w
  rcases hp with rfl | ⟨offset, hmove⟩
  · exact ⟨w, hw, hfor⟩
  · exact ⟨w, hw, hfor.moveFlag hmove⟩

namespace LayoutRequest

/-- The answer to a request gives the layout for the width, alone or among those of all widths. -/
inductive Gives : LayoutRequest → LayoutAnswer → Nat → AggregateLayout → Prop where
  | layout (width : Nat) (p : AggregateLayout) : Gives (.layout width) (.layout p) width p
  | allLayouts (ps : PerWidth AggregateLayout) (w : Width) :
      Gives .allLayouts (.layouts ps) w.bits (ps.get w)

variable {target : Target} {flag : FlagStorage} {history rs : List LayoutRequest}
  {r : LayoutRequest} {width : Nat} {p : AggregateLayout}

variable (target flag rs) in
/-- In a run of requests to a new table, one of them gives the layout for the width. -/
def GivenIn (width : Nat) (p : AggregateLayout) : Prop :=
  ∃ r o answer, (r, o) ∈ rs.zip (runAll rs (.new target flag)) ∧ o.result = .ok answer ∧
    Gives r answer width p

/-- What a request gives is what the table with the pins so far would compute. -/
lemma compute_of_gives {answer : LayoutAnswer}
    (h : (r.run.run (after target flag history)).result = .ok answer)
    (hp : Gives r answer width p) : (pinsOnly target flag history).compute width = .ok p := by
  cases hp with
  | layout width p =>
    rw [result_run_layout, result_layout_after] at h
    exact (Except.map_eq_ok fun _ _ => LayoutAnswer.layout.inj).1 h
  | allLayouts ps w =>
    rw [result_run_allLayouts, result_allLayouts_after] at h
    exact PerWidth.ofFnM_eq_ok.1 ((Except.map_eq_ok fun _ _ => LayoutAnswer.layouts.inj).1 h) w

theorem isFor_of_givenIn (h : GivenIn target flag rs width p) :
    ∃ w : Width, w.bits = width ∧ p.IsFor target flag w := by
  obtain ⟨r, o, answer, hmem, ho, hp⟩ := h
  obtain ⟨before, rfl⟩ := Action.exists_of_mem_zip_runAll hmem
  rw [← before.reverse_reverse] at ho
  exact LayoutTable.isFor_of_compute (compute_of_gives ho hp)

/-- Every width is given a layout if it is asked for. -/
lemma exists_givenIn (target : Target) (flag : FlagStorage) (w : Width) :
    ∃ rs p, GivenIn target flag rs w.bits p := by
  have hanswer : ((layout w.bits).run.run (.new target flag)).result = .ok (.layout
      (.ofTypes (target.typeLayout w.valueType) (target.typeLayout flag.cType))) := by
    cases w <;> rfl
  exact ⟨[.layout w.bits], _, _, _, _, List.mem_cons_self, hanswer, .layout _ _⟩

/-- **Layouts are as meant where the C types are.** Whatever is pinned and asked for on a target, a
layout that is given has value and flag of the sizes of their C types, with the flag behind the
value. All layouts given for a width have the sizes that are meant, and slots are made from them,
exactly if the target suits the width and the storage of the flag. Known targets do so except that
an `int` of two bytes serves neither as a value of 32 bits nor as a flag of four bytes. -/
theorem given_as_meant_iff (target : Target) (flag : FlagStorage) :
    (∀ rs width p, GivenIn target flag rs width p →
        ∃ w : Width, w.bits = width ∧ p.IsFor target flag w ∧
          ((∃ slots, ResultSlots.ofAggregate w p = .ok slots) ↔
            p.valueSize = w.bytes ∧ ∃ v : Width, p.flagSize = v.bytes)) ∧
      (∀ w : Width, (∀ rs p, GivenIn target flag rs w.bits p → p.IsMeant flag w) ↔
        target.Suits flag w) ∧
      (target ∈ Target.known → ∀ w,
        target.Suits flag w ↔ target.int.size = 4 ∨ flag = .oneByte ∧ w ≠ .w32) := by
  refine ⟨fun rs width p h => ?_, fun w => ⟨fun h => ?_, fun h rs p hp => ?_⟩,
    fun ht w => Target.suits_iff_of_known ht flag w⟩
  · obtain ⟨w, hw, hfor⟩ := isFor_of_givenIn h
    exact ⟨w, hw, hfor, AggregateLayout.exists_ofAggregate_iff⟩
  · obtain ⟨rs, p, hp⟩ := exists_givenIn target flag w
    obtain ⟨v, hv, hfor⟩ := isFor_of_givenIn hp
    rw [Width.bits_inj.1 hv] at hfor
    exact hfor.isMeant_iff.1 (h rs p hp)
  · obtain ⟨v, hv, hfor⟩ := isFor_of_givenIn hp
    rw [Width.bits_inj.1 hv] at hfor
    exact hfor.isMeant_iff.2 h

/-- A flag that is meant to have four bytes is given two, and slots are made for it; a value of 32
bits is given two bytes, and no slots are made for it. -/
theorem given_on_avr :
    GivenIn .avr .fourBytes [.layout 8, .layout 32] 8 ⟨1, 1, 2, 3, 1⟩ ∧
      ResultSlots.ofAggregate .w8 ⟨1, 1, 2, 3, 1⟩ = .ok ⟨.w8, 1, .w16, 3⟩ ∧
      GivenIn .avr .fourBytes [.layout 8, .layout 32] 32 ⟨2, 2, 2, 4, 1⟩ ∧
      ResultSlots.ofAggregate .w32 ⟨2, 2, 2, 4, 1⟩ = .error (.unsupported (.valueSize .w32 2)) ∧
      ¬ ∀ target ∈ Target.known, ∀ flag rs width p, GivenIn target flag rs width p →
        ∃ w : Width, w.bits = width ∧ p.IsMeant flag w := by
  have h8 : GivenIn .avr .fourBytes [.layout 8, .layout 32] 8 ⟨1, 1, 2, 3, 1⟩ :=
    ⟨_, _, _, List.mem_cons_self, rfl, .layout _ _⟩
  have h32 : GivenIn .avr .fourBytes [.layout 8, .layout 32] 32 ⟨2, 2, 2, 4, 1⟩ :=
    ⟨_, _, _, List.mem_cons_of_mem _ List.mem_cons_self, rfl, .layout _ _⟩
  refine ⟨h8, rfl, h32, rfl, fun hall => ?_⟩
  obtain ⟨w, -, hmeant⟩ := hall .avr (by decide) .fourBytes _ _ _ h8
  exact absurd hmeant.flagSize (by decide)

end LayoutRequest

end FixedInt
