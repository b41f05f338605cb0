import FixedInt.Proofs.Construction
import Mathlib.Data.List.Induction

/-!
The keys of flag offsets and what is made of them. A key stands for a width if it spells the number
of its bits, with any number of zeros and perhaps a plus sign in front. The overrides are the
entries so read, arranged in one order, and an evaluator is made from them alone; so the order in
which the entries are met shows only in which of several misspelt keys is named.
-/

namespace FixedInt

namespace Settings

/-- The key spells the number: in decimal, with zeros in front of it and a plus sign in front of
those. -/
def SpellsNumber (key : String) (n : Nat) : Prop :=
  ∃ sign ∈ ["", "+"], ∃ zeros, key = sign ++ String.ofList (List.replicate zeros '0') ++ toString n

/-- The key spells the number of bits of the width. -/
def Spells (key : String) (w : Width) : Prop := SpellsNumber key w.bits

/-! ### Digits -/

lemma digitChar_of_isDigit {c : Char} (h : c.isDigit) :
    c.toNat - 48 < 10 ∧ (c.toNat - 48).digitChar = c := by
  have hc : 48 ≤ c.toNat ∧ c.toNat ≤ 57 := by
    simpa [Char.isDigit, UInt32.le_iff_toNat_le] using h
  refine ⟨by omega, Char.toNat_inj.1 ?_⟩
  rw [Nat.toNat_digitChar_of_lt_ten (by omega)]
  omega

/-- The decimal digits of a number, none for zero. -/
def significant (n : Nat) : List Char := if n = 0 then [] else Nat.toDigits 10 n

lemma significant_append {n k : Nat} (hk : k < 10) (h : 0 < 10 * n + k) :
    significant n ++ [k.digitChar] = significant (10 * n + k) := by
  rw [significant, significant, if_neg h.ne']
  split
  · next hn => rw [hn, Nat.mul_zero, Nat.zero_add, Nat.toDigits_of_lt_base hk, List.nil_append]
  · next hn =>
    rw [← Nat.toDigits_of_lt_base hk]
    exact Nat.toDigits_append_toDigits (by decide) (Nat.pos_of_ne_zero hn) hk

lemma ofDigits_append (ds : List Char) (c : Char) :
    ofDigits (ds ++ [c]) = 10 * ofDigits ds + (c.toNat - 48) := by
  rw [ofDigits, List.foldl_append]
  rfl

/-- **Digits are zeros and then the digits of their number.** -/
theorem exists_zeros {ds : List Char} (h : ∀ c ∈ ds, c.isDigit) :
    ∃ zeros, ds = List.replicate zeros '0' ++ significant (ofDigits ds) := by
  induction ds using List.reverseRecOn with
  | nil => exact ⟨0, rfl⟩
  | append_singleton ds c ih =>
    obtain ⟨zeros, hds⟩ := ih fun d hd => h d (List.mem_append_left _ hd)
    obtain ⟨hk, hc⟩ := digitChar_of_isDigit (h c (by simp))
    rw [ofDigits_append]
    by_cases hpos : 0 < 10 * ofDigits ds + (c.toNat - 48)
    · refine ⟨zeros, ?_⟩
      rw [← significant_append hk hpos, hc, ← List.append_assoc, ← hds]
    · -- nothing but zeros so far
      have hn : ofDigits ds = 0 := by omega
      have hc0 : c.toNat - 48 = 0 := by omega
      rw [hc0] at hc
      refine ⟨zeros + 1, ?_⟩
      rw [hc0, hn, hds, hn, ← hc, List.replicate_succ']
      simp [significant]

lemma ofDigits_zeros_append (zeros n : Nat) :
    ofDigits (List.replicate zeros '0' ++ Nat.toDigits 10 n) = n := by
  change Nat.ofDigitChars 10 _ 0 = n
  rw [Nat.ofDigitChars_append, Nat.ofDigitChars_replicate_zero, Nat.mul_zero]
  exact Nat.ofDigitChars_ten_toDigits

lemma isDigit_of_mem_zeros_append {zeros n : Nat} {c : Char}
    (h : c ∈ List.replicate zeros '0' ++ Nat.toDigits 10 n) : c.isDigit := by
  rcases List.mem_append.1 h with h | h
  · rw [List.eq_of_mem_replicate h]
    decide
  · exact Nat.isDigit_of_mem_toDigits (by decide) (by decide) h

/-! ### Reading keys -/

/-- What is left of a key without a plus sign in front. -/
def unsigned : List Char → List Char
  | '+' :: cs => cs
  | cs => cs

lemma keyNumber?_eq (key : String) :
    keyNumber? key = if unsigned key.toList ≠ [] ∧ (unsigned key.toList).all Char.isDigit then
      some (ofDigits (unsigned key.toList)) else none := rfl

lemma exists_sign (key : String) :
    ∃ sign ∈ ["", "+"], key = sign ++ String.ofList (unsigned key.toList) := by
  cases hkey : key.toList with
  | nil => exact ⟨"", by simp, String.toList_inj.1 (by simpa [unsigned] using hkey)⟩
  | cons c cs =>
    by_cases hc : c = '+'
    · exact ⟨"+", by simp, String.toList_inj.1 (by simpa [unsigned, hc] using hkey)⟩
    · exact ⟨"", by simp, String.toList_inj.1 (by simpa [unsigned, hc] using hkey)⟩

/-- Digits are what is left of themselves, with a sign or without. -/
lemma unsigned_sign_append {sign : String} (hsign : sign ∈ ["", "+"]) {ds : List Char}
    (hds : ∀ c ∈ ds, c.isDigit) : unsigned (sign ++ String.ofList ds).toList = ds := by
  rcases List.mem_pair.1 hsign with rfl | rfl
  · cases ds with
    | nil => rfl
    | cons c ds =>
      have hc : c ≠ '+' := by
        rintro rfl
        exact absurd (hds '+' List.mem_cons_self) (by decide)
      simp [unsigned, hc]
  · simp [unsigned]

lemma keyNumber?_eq_some_iff {key : String} {n : Nat} :
    keyNumber? key = some n ↔ ∃ sign ∈ ["", "+"], ∃ ds, ds ≠ [] ∧ (∀ c ∈ ds, c.isDigit) ∧
      ofDigits ds = n ∧ key = sign ++ String.ofList ds := by
  constructor
  · intro h
    rw [keyNumber?_eq] at h
    split_ifs at h with hds
    obtain ⟨sign, hsign, hkey⟩ := exists_sign key
    exact ⟨sign, hsign, _, hds.1, List.all_eq_true.1 hds.2, Option.some.inj h, hkey⟩
  · rintro ⟨sign, hsign, ds, hne, hds, rfl, rfl⟩
    rw [keyNumber?_eq, unsigned_sign_append hsign hds, if_pos ⟨hne, List.all_eq_true.2 hds⟩]

/-- A positive number is read off exactly the keys that spell it. -/
theorem keyNumber?_eq_some_iff_spells {key : String} {n : Nat} (hn : 0 < n) :
    keyNumber? key = some n ↔ SpellsNumber key n := by
  rw [keyNumber?_eq_some_iff]
  constructor
  · rintro ⟨sign, hsign, ds, -, hds, rfl, rfl⟩
    obtain ⟨zeros, hz⟩ := exists_zeros hds
    rw [significant, if_neg hn.ne'] at hz
    refine ⟨sign, hsign, zeros, String.toList_inj.1 ?_⟩
    simp [← hz]
  · rintro ⟨sign, hsign, zeros, rfl⟩
    refine ⟨sign, hsign, List.replicate zeros '0' ++ Nat.toDigits 10 n, ?_,
      fun c => isDigit_of_mem_zeros_append, ofDigits_zeros_append zeros n, String.toList_inj.1 ?_⟩
    · simp
    · simp

theorem keyWidth?_eq_some_iff {key : String} {w : Width} :
    keyWidth? key = some w ↔ Spells key w := by
  have hw : 0 < w.bits := by cases w <;> decide
  rw [Spells, ← keyNumber?_eq_some_iff_spells hw, keyWidth?]
  simp [Option.bind_eq_some_iff, Width.ofBits?_eq_some_iff]

/-- The key of some entry spells no width. -/
def Misspelt (s : Settings) (key : String) : Prop :=
  key ∈ Assoc.keys s.flagOffsets.entries ∧ ∀ w, ¬ Spells key w

lemma keysValid_iff (s : Settings) :
    s.KeysValid ↔ ∀ e ∈ s.flagOffsets.entries, ∃ w, Spells e.1 w := by
  simp only [KeysValid, Option.ne_none_iff_exists', keyWidth?_eq_some_iff]

lemma misspelt_of_mem {s : Settings} {e : String × Nat} (he : e ∈ s.flagOffsets.entries)
    (h : keyWidth? e.1 = none) : s.Misspelt e.1 := by
  refine ⟨List.mem_map_of_mem he, fun w hw => ?_⟩
  rw [keyWidth?_eq_some_iff.2 hw] at h
  cases h

/-! ### Arranged overrides -/

/-- The override is the entry with its key read. -/
def Reads (e : String × Nat) (o : Override) : Prop := Spells e.1 o.1 ∧ o.2 = e.2

/-- Of a smaller width, or of the same width with an offset that is not larger. -/
def Override.Precedes (a b : Override) : Prop := a.1.bits < b.1.bits ∨ a.1 = b.1 ∧ a.2 ≤ b.2

/-- The overrides are the entries, each one read and none lost or merged with another, by width
and by offset within a width. -/
structure Arranges (os : List Override) (es : List (String × Nat)) : Prop where
  ascending : os.Pairwise Override.Precedes
  complete : ∃ ps, List.Forall₂ Reads es ps ∧ os.Perm ps

lemma Override.precedes_antisymm {a b : Override} (h1 : a.Precedes b) (h2 : b.Precedes a) :
    a = b := by
  rcases h1 with h1 | ⟨h1, h1'⟩ <;> rcases h2 with h2 | ⟨h2, h2'⟩
  · omega
  · rw [h2] at h1
    omega
  · rw [h1] at h2
    omega
  · exact Prod.ext h1 (Nat.le_antisymm h1' h2')

/-- There is only one way to sort. -/
theorem mergeSort_eq_iff {ps os : List Override} :
    ps.mergeSort Override.le = os ↔ os.Pairwise Override.Precedes ∧ os.Perm ps := by
  have hsorted : (ps.mergeSort Override.le).Pairwise Override.Precedes :=
    (List.pairwise_mergeSort override_le_trans override_le_total ps).imp (override_le_iff _ _).1
  have hperm := List.mergeSort_perm ps Override.le
  constructor
  · rintro rfl
    exact ⟨hsorted, hperm⟩
  · rintro ⟨hos, hps⟩
    exact List.Perm.eq_of_pairwise (fun _ _ _ _ => Override.precedes_antisymm) hsorted hos
      (hperm.trans hps.symm)

lemma override_eq_ok_iff {e : String × Nat} {o : Override} : override e = .ok o ↔ Reads e o := by
  rw [Reads, ← keyWidth?_eq_some_iff]
  cases h : keyWidth? e.1 with
  | none => simp [override_eq_error h]
  | some w =>
    rw [override_eq_ok h, Except.ok.injEq, Option.some.injEq]
    exact Prod.ext_iff.trans (and_congr_right fun _ => eq_comm)

lemma mapM_override_eq_ok_iff {es : List (String × Nat)} {ps : List Override} :
    es.mapM override = .ok ps ↔ List.Forall₂ Reads es ps := by
  rw [Except.mapM_eq_ok, ← List.forall₂_eq_eq_eq, List.forall₂_map_left_iff,
    List.forall₂_map_right_iff]
  simp only [override_eq_ok_iff]

/-- **The overrides are the entries, arranged.** -/
theorem overrides_eq_ok_iff {s : Settings} {os : List Override} :
    s.overrides = .ok os ↔ Arranges os s.flagOffsets.entries := by
  rw [overrides, Except.bind_eq_ok]
  simp only [mapM_override_eq_ok_iff, pure, Except.pure, Except.ok.injEq, mergeSort_eq_iff]
  constructor
  · rintro ⟨ps, hps, hos, hperm⟩
    exact ⟨hos, ps, hps, hperm⟩
  · rintro ⟨hos, ps, hps, hperm⟩
    exact ⟨ps, hps, hos, hperm⟩

/-! ### Any order of the entries -/

section Same

variable {s t : Settings}

lemma misspelt_congr (h : s.Same t) {key : String} : s.Misspelt key ↔ t.Misspelt key := by
  rw [Misspelt, Misspelt, Assoc.keys, Assoc.keys, (h.2.1.map Prod.fst).mem_iff]

/-- In whatever order the entries are met, they are arranged in the same way. -/
theorem overrides_congr (h : s.Same t) (hs : s.KeysValid) : s.overrides = t.overrides := by
  obtain ⟨hos, hperm⟩ := mergeSort_eq_iff.1 (rfl : t.unsorted.mergeSort Override.le = _)
  rw [overrides_of_valid hs, overrides_of_valid ((keysValid_congr h).1 hs), Except.ok.injEq]
  exact mergeSort_eq_iff.2 ⟨hos, hperm.trans (h.2.1.symm.filterMap _)⟩

/-- A different failure means two misspelt keys, one named here and one there. -/
lemma exists_misspelt_of_ne (h : s.Same t) (hne : s.overrides ≠ t.overrides) :
    ∃ c d, c ≠ d ∧ s.Misspelt c ∧ s.Misspelt d ∧
      s.overrides = .error (.invalidKey c) ∧ t.overrides = .error (.invalidKey d) := by
  have hs : ¬ s.KeysValid := fun hs => hne (overrides_congr h hs)
  have ht : ¬ t.KeysValid := fun ht => hs ((keysValid_congr h).2 ht)
  obtain ⟨e, hmem, hw, he⟩ := overrides_of_invalid hs
  obtain ⟨e', hmem', hw', he'⟩ := overrides_of_invalid ht
  refine ⟨e.1, e'.1, ?_, misspelt_of_mem hmem hw,
    (misspelt_congr h).2 (misspelt_of_mem hmem' hw'), he, he'⟩
  intro hkey
  rw [he, he', hkey] at hne
  exact hne rfl

end Same

end Settings

namespace Setup

variable {σ : Type} {s t : Settings}

/-- An evaluator is made from the arranged overrides. -/
lemma ofSettings_congr (h : s.Same t) (ho : s.overrides = t.overrides) (host : HostTarget) :
    (ofSettings s host : Action σ EvalError Evaluator) = ofSettings t host := by
  cases host <;>
    simp only [ofSettings, Evaluator.ofSettings, Evaluator.ofSettingsWithoutTarget, h.1, h.2.2, ho]

/-- Without a target, flags that are not of four bytes are refused before any key is read. -/
lemma run_ofSettings_of_error {err : SettingsError} (h : s.overrides = .error err)
    (host : HostTarget) (m : σ) :
    (ofSettings s host).run m =
      ⟨.error (if host = .unknown ∧ s.flagStorage ≠ .fourBytes then .layout .unsupportedHost
        else .settings err), m, []⟩ := by
  cases host with
  | known =>
    rw [ofSettings, Evaluator.ofSettings, h]
    rfl
  | unknown =>
    rw [ofSettings, Evaluator.ofSettingsWithoutTarget, h]
    by_cases hs : s.flagStorage = .fourBytes
    · rw [if_pos hs, if_neg (by simp [hs])]
      rfl
    · rw [if_neg hs, if_pos ⟨rfl, hs⟩]
      rfl

end Setup

namespace Settings

/-- **Overrides are what the keys spell, in one order.** There are overrides exactly if every key
spells a width, and then they are the entries, arranged; otherwise a misspelt key is named. With the
entries in any other order the overrides are the same, and so is all that comes of making an
evaluator, unless two keys are misspelt and each order names one of them. -/
theorem overrides_ordered (s : Settings) :
    ((∃ os, s.overrides = .ok os) ↔ ∀ e ∈ s.flagOffsets.entries, ∃ w, Spells e.1 w) ∧
      (∀ os, s.overrides = .ok os ↔ Arranges os s.flagOffsets.entries) ∧
      (∀ err, s.overrides = .error err → ∃ key, s.Misspelt key ∧ err = .invalidKey key) ∧
      ∀ t, s.Same t →
        (∀ os, s.overrides = .ok os ↔ t.overrides = .ok os) ∧
        ∀ (host : HostTarget) {σ : Type} (m : σ),
          (Setup.ofSettings s host).run m = (Setup.ofSettings t host).run m ∨
          ∃ c d, c ≠ d ∧ s.Misspelt c ∧ s.Misspelt d ∧
            (Setup.ofSettings s host).run m = ⟨.error (.settings (.invalidKey c)), m, []⟩ ∧
            (Setup.ofSettings t host).run m = ⟨.error (.settings (.invalidKey d)), m, []⟩ := by
  refine ⟨(exists_overrides_iff s).trans (keysValid_iff s), fun os => overrides_eq_ok_iff,
    ?_, ?_⟩
  · intro err herr
    have hs : ¬ s.KeysValid := fun hs => by
      rw [overrides_of_valid hs] at herr
      cases herr
    obtain ⟨e, hmem, hw, he⟩ := overrides_of_invalid hs
    exact ⟨e.1, misspelt_of_mem hmem hw, Except.error.inj (herr.symm.trans he)⟩
  · intro t h
    by_cases ho : s.overrides = t.overrides
    · refine ⟨fun os => by rw [ho], fun host σ m => Or.inl ?_⟩
      rw [Setup.ofSettings_congr h ho]
    · obtain ⟨c, d, hne, hc, hd, hs, ht⟩ := exists_misspelt_of_ne h ho
      refine ⟨fun os => by simp [hs, ht], fun host σ m => ?_⟩
      rw [Setup.run_ofSettings_of_error hs, Setup.run_ofSettings_of_error ht, ← h.1]
      by_cases hhost : host = .unknown ∧ s.flagStorage ≠ .fourBytes
      · rw [if_pos hhost, if_pos hhost]
        exact Or.inl rfl
      · rw [if_neg hhost, if_neg hhost]
        exact Or.inr ⟨c, d, hne, hc, hd, rfl, rfl⟩

/-- Two keys for one width, and a key with a sign and zeros. -/
def threeKeys : Settings :=
  { flagOffsets := ⟨[("16", 12), ("+008", 4), ("0016", 8)], by decide⟩ }

/-- The same entries in another order. -/
def threeKeysReordered : Settings :=
  { flagOffsets := ⟨[("0016", 8), ("16", 12), ("+008", 4)], by decide⟩ }

/-- Both keys of a width are kept, and no order of the entries shows. -/
theorem overrides_ordered_threeKeys :
    threeKeys.Same threeKeysReordered ∧
      threeKeys.overrides = .ok [(.w8, 4), (.w16, 8), (.w16, 12)] ∧
      threeKeysReordered.overrides = .ok [(.w8, 4), (.w16, 8), (.w16, 12)] ∧
      (Setup.ofSettings threeKeys .unknown).run () =
        (Setup.ofSettings threeKeysReordered .unknown).run () := by
  have hsame : threeKeys.Same threeKeysReordered := by decide
  obtain ⟨hvalid, hok, -, hreordered⟩ := overrides_ordered threeKeys
  obtain ⟨hoverrides, hruns⟩ := hreordered _ hsame
  have harranged : Arranges [(.w8, 4), (.w16, 8), (.w16, 12)] threeKeys.flagOffsets.entries := by
    refine ⟨?_, [(.w16, 12), (.w8, 4), (.w16, 8)], ?_, by decide⟩
    · simp [Override.Precedes, Width.bits]
    · have h16 : Reads ("16", 12) (.w16, 12) := ⟨⟨"", by simp, 0, by decide⟩, rfl⟩
      have h8 : Reads ("+008", 4) (.w8, 4) := ⟨⟨"+", by simp, 2, by decide⟩, rfl⟩
      have h0016 : Reads ("0016", 8) (.w16, 8) := ⟨⟨"", by simp, 2, by decide⟩, rfl⟩
      exact .cons h16 (.cons h8 (.cons h0016 .nil))
  have hs := (hok _).2 harranged
  refine ⟨hsame, hs, (hoverrides _).1 hs, ?_⟩
  rcases hruns .unknown () with h | ⟨c, d, -, ⟨hc, hspells⟩, -⟩
  · exact h
  · obtain ⟨e, he, rfl⟩ := List.mem_map.1 hc
    obtain ⟨w, hw⟩ := hvalid.1 ⟨_, hs⟩ e he
    exact absurd hw (hspells w)

end Settings

end FixedInt
