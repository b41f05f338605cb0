import FixedInt.Session
import FixedInt.Proofs.Layout
import FixedInt.Proofs.Overrides

/-!
Evaluators made from settings. Both ways to make one come to the same rule for the slots of a
width, from the offset that the settings give for its flag; where several keys stand for the width,
the layouts of the target take the largest offset and the way without a target the smallest.
-/

namespace FixedInt

namespace Evaluator

variable {σ : Type}

/-- The evaluator of settings whose flags lie at the offsets given. -/
def ofOffsets (s : Settings) (offset : Width → Option Nat) : Except EvalError Evaluator := do
  let slots ← PerWidth.ofFnM fun w => ResultSlots.place s.flagStorage w (offset w)
  return ⟨slots, s.assumptionPolicy⟩

/-! ### Taking over slots -/

lemma answers_adopt (w : Width) (slots : ResultSlots) :
    (adopt w slots : Action σ EvalError Unit).Answers (fun _ => True)
      (if slots.width = w then .ok ()
        else .error (.unsupported (.misplacedSlots slots.width w))) := by
  intro m _
  rw [adopt]
  split <;> exact ⟨rfl, trivial⟩

/-- Slots are taken over as they are if each has its width; nothing else is looked at. -/
theorem result_ofSlots_eq_ok {slots : PerWidth ResultSlots} {policy : AssumptionPolicy} {m : σ}
    {e : Evaluator} :
    ((ofSlots slots policy).run m).result = .ok e ↔
      (∀ w, (slots.get w).width = w) ∧ e = ⟨slots, policy⟩ := by
  have hall := (PerWidth.answers_ofFnM (fun w => answers_adopt w (slots.get w)) m trivial).1
  rw [ofSlots, Action.result_bind, hall, Except.bind_eq_ok]
  constructor
  · rintro ⟨units, hunits, he⟩
    refine ⟨fun w => ?_, (Except.ok.inj he).symm⟩
    have hw := PerWidth.ofFnM_eq_ok.1 hunits w
    by_contra hne
    rw [if_neg hne] at hw
    cases hw
  · rintro ⟨hw, rfl⟩
    exact ⟨.ofFn fun _ => (), PerWidth.ofFnM_eq_ok.2 fun w => if_pos (hw w), rfl⟩

/-- Slots that were placed are taken over. -/
lemma result_place_ofSlots (s : Settings) (offset : Width → Option Nat) (m : σ) :
    ((do
      let slots ← Action.ofExcept
        (PerWidth.ofFnM fun w => ResultSlots.place s.flagStorage w (offset w))
      ofSlots slots s.assumptionPolicy : Action σ EvalError Evaluator).run m).result =
      ofOffsets s offset := by
  rw [Action.result_bind, ofOffsets]
  cases h : PerWidth.ofFnM fun w => ResultSlots.place s.flagStorage w (offset w) with
  | ok slots =>
    have hsound := fun w => ResultSlots.sound_of_place (PerWidth.ofFnM_eq_ok.1 h w)
    exact result_ofSlots_eq_ok.2 ⟨fun w => (hsound w).width, rfl⟩
  | error e => rfl

/-! ### With the layouts of the target -/

section Pinned

variable (target : Target) (flag : FlagStorage) (os : List Settings.Override)

lemma foldl_pin (t : LayoutTable) (ht : t.Coherent) :
    (os.foldl (fun t o => t.pin o.1.bits o.2) t).Coherent ∧
      (os.foldl (fun t o => t.pin o.1.bits o.2) t).target = t.target ∧
      (os.foldl (fun t o => t.pin o.1.bits o.2) t).flagStorage = t.flagStorage ∧
      (os.foldl (fun t o => t.pin o.1.bits o.2) t).pinned =
        (os.map fun o => (o.1.bits, o.2)).reverse ++ t.pinned := by
  induction os generalizing t with
  | nil => exact ⟨ht, rfl, rfl, rfl⟩
  | cons o os ih =>
    obtain ⟨h1, h2, h3, h4⟩ := ih (t.pin o.1.bits o.2) (ht.pin _ _)
    refine ⟨h1, h2, h3, h4.trans ?_⟩
    simp [LayoutTable.pin]

lemma coherent_pinnedTable : (pinnedTable target flag os).Coherent :=
  (foldl_pin os _ (LayoutTable.coherent_new target flag)).1

lemma lookup_map_bits (os : List Settings.Override) (w : Width) :
    (os.map fun o => (o.1.bits, o.2)).lookup w.bits = os.lookup w := by
  induction os with
  | nil => rfl
  | cons o os ih =>
    have hb : (w.bits == o.1.bits) = (w == o.1) := by cases w <;> cases o.1 <;> decide
    rw [List.map_cons, List.lookup_cons, List.lookup_cons, hb, ih]

/-- The last override of a width counts. -/
lemma compute_pinnedTable (w : Width) :
    (pinnedTable target flag os).compute w.bits =
      AggregateLayout.ofWidth target flag w.bits >>= fun p => p.moved w (os.reverse.lookup w) := by
  obtain ⟨-, h1, h2, h3⟩ := foldl_pin os _ (LayoutTable.coherent_new target flag)
  have hl : (pinnedTable target flag os).pinned.lookup w.bits = os.reverse.lookup w := by
    rw [pinnedTable, h3, LayoutTable.new, List.append_nil, ← List.map_reverse, lookup_map_bits]
  rw [LayoutTable.compute, hl, pinnedTable, h1, h2]
  cases os.reverse.lookup w <;> rfl

end Pinned

/-- The layout of the host with its flag moved, as slots. -/
lemma compute_bind_ofAggregate (flag : FlagStorage) (os : List Settings.Override) (w : Width) :
    (((pinnedTable .host flag os).compute w.bits).mapError .layout >>=
        ResultSlots.ofAggregate w) = ResultSlots.place flag w (os.reverse.lookup w) := by
  obtain ⟨p, hp, hn⟩ := AggregateLayout.isNatural_ofWidth flag w
  rw [compute_pinnedTable, hp]
  exact AggregateLayout.ofAggregate_moved hn _

lemma ofAggregate_of_compute {flag : FlagStorage} {os : List Settings.Override} {w : Width}
    {q : AggregateLayout}
    (h : ((pinnedTable .host flag os).compute w.bits).mapError EvalError.layout = .ok q) :
    ∃ slots, ResultSlots.ofAggregate w q = .ok slots := by
  obtain ⟨p, hp, hn⟩ := AggregateLayout.isNatural_ofWidth flag w
  rw [compute_pinnedTable, hp] at h
  have hq : p.moved w (os.reverse.lookup w) = .ok q := Except.mapError_eq_ok.1 h
  exact AggregateLayout.ofAggregate_moved_ok hn hq

theorem result_ofSettings (s : Settings) (m : σ) :
    ((ofSettings s).run m).result =
      s.overrides.mapError .settings >>= fun os => ofOffsets s fun w => os.reverse.lookup w := by
  rw [ofSettings, Action.result_bind]
  cases s.overrides with
  | error e => rfl
  | ok os =>
    have hall := (LayoutTable.answers_allLayouts _ (pinnedTable .host s.flagStorage os)
      ⟨coherent_pinnedTable .host s.flagStorage os, rfl⟩).1
    -- no layout is refused as slots, so that both passes over the widths can be made in one
    have hslots := PerWidth.ofFnM_bind_ofFnM
      (f := fun w => ((pinnedTable .host s.flagStorage os).compute w.bits).mapError .layout)
      (g := ResultSlots.ofAggregate) fun w q => ofAggregate_of_compute
    simp only [compute_bind_ofAggregate] at hslots
    change ((_ >>= _ : Action σ EvalError Evaluator).run m).result = ofOffsets s _
    rw [Action.result_bind, Action.result_mapError, Action.result_within, hall,
      PerWidth.ofFnM_mapError]
    simp only [Action.result_bind, Action.run_ofExcept]
    rw [← bind_assoc, hslots]
    have hplace := result_place_ofSlots s (fun w => os.reverse.lookup w) m
    rwa [Action.result_bind] at hplace

/-! ### Without a target -/

lemma isNatural_fourByteAggregate (w : Width) :
    (fourByteAggregate w).IsNatural .fourBytes w := by
  cases w <;> exact ⟨rfl, rfl, rfl⟩

lemma fourByteSlots_eq (os : List Settings.Override) (w : Width) :
    fourByteSlots os w = ResultSlots.place .fourBytes w (os.lookup w) := by
  rw [← AggregateLayout.ofAggregate_moved (isNatural_fourByteAggregate w), fourByteSlots]
  cases os.lookup w <;> rfl

theorem result_ofSettingsWithoutTarget {s : Settings} (h : s.flagStorage = .fourBytes) (m : σ) :
    ((ofSettingsWithoutTarget s).run m).result =
      s.overrides.mapError .settings >>= fun os => ofOffsets s fun w => os.lookup w := by
  rw [ofSettingsWithoutTarget, if_pos h, Action.result_bind]
  cases s.overrides with
  | error e => rfl
  | ok os =>
    have hplace := result_place_ofSlots s (fun w => os.lookup w) m
    simp only [h, ← fourByteSlots_eq] at hplace
    exact hplace

/-! ### Both ways compared -/

/-- With valid keys the layouts of the target use the largest offset of each width. -/
theorem ofSettings_of_valid {s : Settings} (hs : s.KeysValid) (m : σ) :
    ((ofSettings s).run m).result = ofOffsets s s.largest? := by
  rw [result_ofSettings, Settings.overrides_of_valid hs]
  change ofOffsets s _ = _
  congr 1
  exact funext fun w => (s.lookup_sorted w).2

/-- With valid keys the way without a target uses the smallest offset of each width. -/
theorem ofSettingsWithoutTarget_of_valid {s : Settings} (h : s.flagStorage = .fourBytes)
    (hs : s.KeysValid) (m : σ) :
    ((ofSettingsWithoutTarget s).run m).result = ofOffsets s s.smallest? := by
  rw [result_ofSettingsWithoutTarget h, Settings.overrides_of_valid hs]
  change ofOffsets s _ = _
  congr 1
  exact funext fun w => (s.lookup_sorted w).1

/-- Settings with a key that stands for no width are refused in the same way. -/
lemma result_eq_of_invalid {s : Settings} (h : s.flagStorage = .fourBytes) (hs : ¬ s.KeysValid)
    (m : σ) : ((ofSettings s).run m).result = ((ofSettingsWithoutTarget s).run m).result := by
  obtain ⟨e, -, -, he⟩ := Settings.overrides_of_invalid hs
  rw [result_ofSettings, result_ofSettingsWithoutTarget h, he]
  rfl

section Offsets

variable {s : Settings} {f g : Width → Option Nat}

lemma ofOffsets_eq_ok {e : Evaluator} :
    ofOffsets s f = .ok e ↔
      (∀ w, ResultSlots.place s.flagStorage w (f w) = .ok (e.slots.get w)) ∧
        e.assumptionPolicy = s.assumptionPolicy := by
  rw [ofOffsets, Except.bind_eq_ok]
  constructor
  · rintro ⟨slots, h, he⟩
    cases he
    exact ⟨PerWidth.ofFnM_eq_ok.1 h, rfl⟩
  · rintro ⟨h, hp⟩
    refine ⟨e.slots, PerWidth.ofFnM_eq_ok.2 h, ?_⟩
    rw [← hp]
    rfl

lemma ofOffsets_eq_error {e : EvalError} :
    ofOffsets s f = .error e ↔ ∃ w, ResultSlots.place s.flagStorage w (f w) = .error e ∧
      ∀ v, v.bits < w.bits → ∃ slots, ResultSlots.place s.flagStorage v (f v) = .ok slots := by
  rw [ofOffsets, Except.bind_eq_error, ← PerWidth.ofFnM_eq_error]
  constructor
  · rintro (h | ⟨slots, -, h⟩)
    · exact h
    · cases h
  · exact Or.inl

/-- Two offsets come to the same only if they are equal, whether they are allowed or not. -/
lemma place_inj {flag : FlagStorage} {v w : Width} {m n : Nat}
    (h : ResultSlots.place flag v (some m) = ResultSlots.place flag w (some n)) :
    v = w ∧ m = n := by
  by_cases hm : flag.Allows v m <;> by_cases hn : flag.Allows w n
  · rw [ResultSlots.place_of_allows hm, ResultSlots.place_of_allows hn] at h
    simp only [ResultSlots.flagAt, Except.ok.injEq, ResultSlots.mk.injEq] at h
    exact ⟨h.1, h.2.1⟩
  · rw [ResultSlots.place_of_allows hm] at h
    rcases ResultSlots.place_of_not_allows hn with hn | hn <;> rw [hn] at h <;> cases h
  · rw [ResultSlots.place_of_allows hn] at h
    rcases ResultSlots.place_of_not_allows hm with hm | hm <;> rw [hm] at h <;> cases h
  · rcases ResultSlots.place_of_not_allows hm with hm | hm <;>
      rcases ResultSlots.place_of_not_allows hn with hn | hn <;> rw [hm, hn] at h <;>
      simp only [Except.error.injEq, EvalError.layout.injEq, LayoutError.overlappingFlag.injEq,
        LayoutError.misalignedFlag.injEq, reduceCtorEq, and_true] at h <;>
      exact ⟨Width.bits_inj.1 h.1, h.2⟩

end Offsets

/-- **The two ways to make an evaluator agree** in exactly these cases: a key stands for no width;
or no width has two different offsets; or some width is refused by both for its only offset, and
neither way refuses a smaller width. -/
theorem result_eq_iff {s : Settings} (h : s.flagStorage = .fourBytes) (m : σ) :
    ((ofSettings s).run m).result = ((ofSettingsWithoutTarget s).run m).result ↔
      ¬ s.KeysValid ∨ (∀ w, s.smallest? w = s.largest? w) ∨
        ∃ w n, s.smallest? w = some n ∧ s.largest? w = some n ∧
          ¬ FlagStorage.fourBytes.Allows w n ∧ ∀ v, v.bits < w.bits →
            (∀ n ∈ s.smallest? v, FlagStorage.fourBytes.Allows v n) ∧
              ∀ n ∈ s.largest? v, FlagStorage.fourBytes.Allows v n := by
  by_cases hs : s.KeysValid
  swap
  · exact ⟨fun _ => Or.inl hs, fun _ => result_eq_of_invalid h hs m⟩
  rw [ofSettings_of_valid hs, ofSettingsWithoutTarget_of_valid h hs]
  constructor
  · intro heq
    right
    cases hr : ofOffsets s s.largest? with
    | ok e =>
      -- the slots of the evaluator tell the offset of every width
      left
      intro w
      have hl := (ofOffsets_eq_ok.1 hr).1 w
      have hg := (ofOffsets_eq_ok.1 (heq ▸ hr)).1 w
      cases hw : s.largest? w with
      | none => exact (s.smallest?_eq_none_iff w).2 hw
      | some n =>
        obtain ⟨k, hk⟩ := Option.ne_none_iff_exists'.1
          (mt (s.smallest?_eq_none_iff w).1 (by simp [hw]))
        rw [hw] at hl
        rw [hk] at hg
        rw [hk, (place_inj (hg.trans hl.symm)).2]
    | error e =>
      -- the failure tells the width and its offset, and it comes from the smallest such width
      right
      obtain ⟨w, hw, hv⟩ := ofOffsets_eq_error.1 hr
      obtain ⟨w', hw', hv'⟩ := ofOffsets_eq_error.1 (heq ▸ hr)
      obtain ⟨n, hn, hna⟩ := ResultSlots.place_eq_error hw
      obtain ⟨n', hn', -⟩ := ResultSlots.place_eq_error hw'
      rw [hn] at hw
      rw [hn'] at hw'
      obtain ⟨rfl, rfl⟩ := place_inj (hw.trans hw'.symm)
      rw [h] at hna hv hv'
      refine ⟨w, n, hn', hn, hna, fun v hlt => ⟨?_, ?_⟩⟩
      · exact ResultSlots.allows_of_place_eq_ok (hv' v hlt).choose_spec
      · exact ResultSlots.allows_of_place_eq_ok (hv v hlt).choose_spec
  · rintro (hk | heq | ⟨w, n, hmin, hmax, hna, hv⟩)
    · exact absurd hs hk
    · rw [funext heq]
    · -- both ways stop at the width `w` with the same failure
      obtain ⟨e, he⟩ : ∃ e, ResultSlots.place s.flagStorage w (some n) = .error e := by
        rw [h]
        rcases ResultSlots.place_of_not_allows hna with hp | hp <;> exact ⟨_, hp⟩
      rw [← h] at hv
      rw [ofOffsets_eq_error.2 ⟨w, hmax ▸ he, fun v hlt =>
          ResultSlots.exists_place_eq_ok (hv v hlt).2⟩,
        ofOffsets_eq_error.2 ⟨w, hmin ▸ he, fun v hlt =>
          ResultSlots.exists_place_eq_ok (hv v hlt).1⟩]

/-- Settings with two keys for 16 bits, at offsets that are both allowed. -/
def twoOffsets : Settings := { flagOffsets := .ofList [("16", 8), ("+16", 12)] }

theorem twoOffsets_differ :
    twoOffsets.flagStorage = .fourBytes ∧
      ((ofSettings twoOffsets).run ()).result ≠
        ((ofSettingsWithoutTarget twoOffsets).run ()).result := by
  have hw : ∀ w, twoOffsets.smallest? w = none ∨
      twoOffsets.smallest? w ≠ twoOffsets.largest? w := by
    intro w
    cases w <;> decide
  refine ⟨rfl, fun h => ?_⟩
  rcases (result_eq_iff rfl ()).1 h with hk | heq | ⟨w, n, hmin, hmax, -, -⟩
  · exact hk (by decide)
  · exact absurd (heq .w16) (by decide)
  · rcases hw w with h0 | hne
    · rw [h0] at hmin
      cases hmin
    · exact hne (hmin.trans hmax.symm)

/-! ### The evaluator of settings -/

/-- The slots that settings ask for. The flag lies at the largest offset that a key of the width
gives, or else at the least one that is allowed. -/
structure AskedFor (s : Settings) (w : Width) (slots : ResultSlots) : Prop where
  width : slots.width = w
  flagWidth : slots.flagWidth.bits = 8 * s.flagStorage.bytes
  given : ∀ n, s.largest? w = some n → slots.flagOffset = n
  natural : s.largest? w = none → IsLeast {n | s.flagStorage.Allows w n} slots.flagOffset
  extent : slots.extent = slots.flagOffset + s.flagStorage.bytes

lemma askedFor_of_place {s : Settings} {w : Width} {slots : ResultSlots}
    (h : ResultSlots.place s.flagStorage w (s.largest? w) = .ok slots) : AskedFor s w slots := by
  have hbits : s.flagStorage.width.bits = 8 * s.flagStorage.bytes := by
    cases s.flagStorage <;> rfl
  cases hn : s.largest? w with
  | none =>
    rw [hn] at h
    cases h
    exact {
      width := rfl
      flagWidth := hbits
      given := by simp [hn]
      natural := fun _ => isLeast_roundUp w s.flagStorage
      extent := rfl }
  | some n =>
    rw [hn] at h
    rw [ResultSlots.place_of_allows (ResultSlots.allows_of_place_eq_ok h n rfl)] at h
    cases h
    exact {
      width := rfl
      flagWidth := hbits
      given := fun k hk => Option.some.inj (hn.symm.trans hk)
      natural := by simp [hn]
      extent := rfl }

/-- **What settings come to on the host.** They make an evaluator exactly if every key stands for a
width and the largest offset of each width is allowed, and then the slots are those asked for.
Otherwise a key that stands for no width is blamed, and if there is none, the smallest width whose
offset is refused. -/
theorem ofSettings_places (s : Settings) (m : σ) :
    ((∃ e, ((ofSettings s).run m).result = .ok e) ↔
        s.KeysValid ∧ ∀ w, ∀ n ∈ s.largest? w, s.flagStorage.Allows w n) ∧
      (∀ e, ((ofSettings s).run m).result = .ok e →
        e.assumptionPolicy = s.assumptionPolicy ∧ ∀ w, AskedFor s w (e.slots.get w)) ∧
      ∀ err, ((ofSettings s).run m).result = .error err →
        if s.KeysValid then
          ∃ w n, s.largest? w = some n ∧ ¬ s.flagStorage.Allows w n ∧
            (∀ v, v.bits < w.bits → ∀ k ∈ s.largest? v, s.flagStorage.Allows v k) ∧
            err = .layout (s.flagStorage.refusal w n)
        else
          ∃ entry ∈ s.flagOffsets.entries, Settings.keyWidth? entry.1 = none ∧
            err = .settings (.invalidKey entry.1) := by
  by_cases hs : s.KeysValid
  · rw [ofSettings_of_valid hs]
    simp only [if_pos hs]
    refine ⟨⟨fun ⟨e, he⟩ => ⟨hs, fun w => ?_⟩, fun ⟨_, ha⟩ => ?_⟩, fun e he => ?_,
      fun err herr => ?_⟩
    · exact ResultSlots.allows_of_place_eq_ok ((ofOffsets_eq_ok.1 he).1 w)
    · cases hr : ofOffsets s s.largest? with
      | ok e => exact ⟨e, rfl⟩
      | error err =>
        obtain ⟨w, hw, -⟩ := ofOffsets_eq_error.1 hr
        obtain ⟨n, hn, hna⟩ := ResultSlots.place_eq_error hw
        exact absurd (ha w n hn) hna
    · obtain ⟨hplace, hpolicy⟩ := ofOffsets_eq_ok.1 he
      exact ⟨hpolicy, fun w => askedFor_of_place (hplace w)⟩
    · obtain ⟨w, hw, hv⟩ := ofOffsets_eq_error.1 herr
      obtain ⟨n, hn, hna⟩ := ResultSlots.place_eq_error hw
      refine ⟨w, n, hn, hna, fun v hlt => ?_, ?_⟩
      · exact ResultSlots.allows_of_place_eq_ok (hv v hlt).choose_spec
      · rw [hn, ResultSlots.place_of_refused hna] at hw
        exact (Except.error.inj hw).symm
  · obtain ⟨entry, hmem, hkey, herr⟩ := Settings.overrides_of_invalid hs
    have hr : ((ofSettings s).run m).result = .error (.settings (.invalidKey entry.1)) := by
      rw [result_ofSettings, herr]
      rfl
    rw [hr]
    simp only [if_neg hs]
    refine ⟨⟨fun ⟨e, he⟩ => ?_, fun ⟨hk, _⟩ => absurd hk hs⟩, fun e he => ?_, fun err h => ?_⟩
    · cases he
    · cases he
    · cases h
      exact ⟨entry, hmem, hkey, rfl⟩

theorem ofSettings_twoOffsets :
    ∃ e, ((ofSettings twoOffsets).run ()).result = .ok e ∧ (e.slots.get .w16).flagOffset = 12 ∧
      (e.slots.get .w16).extent = 16 ∧ (e.slots.get .w64).flagOffset = 8 := by
  obtain ⟨hiff, hok, -⟩ := ofSettings_places twoOffsets ()
  have hlargest : ∀ w, twoOffsets.largest? w = if w = .w16 then some 12 else none := by
    intro w
    cases w <;> decide
  obtain ⟨e, he⟩ := hiff.2 ⟨by decide, fun w n hn => by
    rw [hlargest, Option.mem_def, Option.ite_none_right_eq_some] at hn
    obtain ⟨rfl, hn⟩ := hn
    cases hn
    exact ⟨by decide, rfl⟩⟩
  obtain ⟨-, hslots⟩ := hok e he
  have hoffset := (hslots .w16).given 12 (hlargest .w16)
  refine ⟨e, he, hoffset, ?_, ?_⟩
  · rw [(hslots .w16).extent, hoffset]
    rfl
  · exact ((hslots .w64).natural (hlargest .w64)).unique (isLeast_roundUp .w64 .fourBytes)

/-! ### Slots of an evaluator -/

/-- The slots of an evaluator made from settings were placed. -/
lemma exists_place_of_ofSettings {s : Settings} {host : HostTarget} {m : σ} {e : Evaluator}
    (h : ((Setup.ofSettings s host).run m).result = .ok e) (w : Width) :
    ∃ offset, ResultSlots.place s.flagStorage w offset = .ok (e.slots.get w) := by
  have hoffsets : ∃ offset, ofOffsets s offset = .ok e := by
    cases host with
    | known =>
      rw [Setup.ofSettings, result_ofSettings, Except.bind_eq_ok] at h
      obtain ⟨os, -, h⟩ := h
      exact ⟨_, h⟩
    | unknown =>
      rw [Setup.ofSettings] at h
      by_cases hs : s.flagStorage = .fourBytes
      · rw [result_ofSettingsWithoutTarget hs, Except.bind_eq_ok] at h
        obtain ⟨os, -, h⟩ := h
        exact ⟨_, h⟩
      · rw [ofSettingsWithoutTarget, if_neg hs] at h
        cases h
  obtain ⟨offset, h⟩ := hoffsets
  exact ⟨offset w, (ofOffsets_eq_ok.1 h).1 w⟩

/-- **Every evaluator made from settings has sound slots.** -/
theorem sound_of_ofSettings {s : Settings} {host : HostTarget} {m : σ} {e : Evaluator}
    (h : ((Setup.ofSettings s host).run m).result = .ok e) (w : Width) :
    (e.slots.get w).Sound w :=
  ResultSlots.sound_of_place (exists_place_of_ofSettings h w).choose_spec

/-- However an evaluator was made, it has the slots for each width in their place. -/
theorem width_of_build {setup : Setup} {m : σ} {e : Evaluator}
    (h : (setup.build.run m).result = .ok e) (w : Width) : (e.slots.get w).width = w := by
  cases setup with
  | settings s host => exact (sound_of_ofSettings h w).width
  | document text host =>
    rw [Setup.build, Action.result_bind, Except.bind_eq_ok] at h
    obtain ⟨s, -, h⟩ := h
    exact (sound_of_ofSettings h w).width
  | slots specs policy =>
    rw [Setup.build, Action.result_bind, Except.bind_eq_ok] at h
    obtain ⟨slots, -, h⟩ := h
    obtain ⟨hw, rfl⟩ := result_ofSlots_eq_ok.1 h
    exact hw w

/-- Flags of four bytes right behind the values. -/
def plain : Evaluator := ⟨.ofFn ResultSlots.withFourByteFlag, .ignore⟩

/-- The default settings make the plain evaluator, with a target or without. -/
theorem result_default (host : HostTarget) (m : σ) :
    ((Setup.ofSettings {} host).run m).result = .ok plain := by
  have hkeys : (({} : Settings)).KeysValid := by decide
  cases host with
  | known =>
    rw [Setup.ofSettings, ofSettings_of_valid hkeys]
    rfl
  | unknown =>
    rw [Setup.ofSettings, ofSettingsWithoutTarget_of_valid rfl hkeys]
    rfl

end Evaluator

end FixedInt
