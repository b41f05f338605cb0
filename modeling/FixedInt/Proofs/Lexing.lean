import FixedInt.Toml.Printer
import Mathlib.Tactic.Lemma
import Mathlib.Data.List.Basic

/-!
Words that are written are read again. A key may hold any characters; what was written for it
begins with no blank and is read up to the blank after it. Numbers are read from their digits.
-/

namespace FixedInt.Toml

/-! ### Characters -/

/-- Whatever holds of the first characters can be decided. -/
lemma forall_ascii {P : Char → Prop} (h : ∀ n < 128, P (Char.ofNat n)) (c : Char)
    (hc : c.toNat < 128) : P c := by
  simpa using h c.toNat hc

/-- A character of a kind is none of another kind. -/
lemma ne_of_kind {p : Char → Bool} {c d : Char} (hc : p c) (hd : p d = false) : c ≠ d := by
  rintro rfl
  rw [hd] at hc
  cases hc

lemma isBlank_of_kind {p : Char → Bool} {c : Char} (hc : p c) (hspace : p ' ' = false)
    (htab : p '\t' = false) : isBlank c = false := by
  rw [isBlank, Bool.or_eq_false_iff, beq_eq_false_iff_ne, beq_eq_false_iff_ne]
  exact ⟨ne_of_kind hc hspace, ne_of_kind hc htab⟩

/-! ### Strings in double quotes -/

/-- A character that needs no escape inside double quotes. -/
def isPlain (c : Char) : Bool := isText c && c != '\x22' && c != '\\'

lemma basicRest_plain {c : Char} (h : isPlain c) (r : List Char) :
    basicRest false false (c :: r) = prepend c (basicRest false false r) := by
  have hbreak : c ≠ '\n' ∧ c ≠ '\r' := ⟨ne_of_kind h rfl, ne_of_kind h rfl⟩
  simp only [isPlain, Bool.and_eq_true, bne_iff_ne] at h
  rw [basicRest.eq_def]
  split <;> simp_all

/-- The four digits of a control character. -/
lemma hexEscape?_hex4 (c : Char) (hc : c.toNat < 128) :
    (hex4 c.toNat).toList.length = 4 ∧ hexEscape? (hex4 c.toNat).toList = some c := by
  refine forall_ascii (P := fun c => (hex4 c.toNat).toList.length = 4 ∧
    hexEscape? (hex4 c.toNat).toList = some c) ?_ c hc
  simp only [hex4, String.toList_ofList]
  decide

lemma basicRest_hex4 (c : Char) (hc : c.toNat < 128) (r : List Char) :
    basicRest false false ('\\' :: 'u' :: (hex4 c.toNat).toList ++ r) =
      prepend c (basicRest false false r) := by
  obtain ⟨hlen, hread⟩ := hexEscape?_hex4 c hc
  match h : (hex4 c.toNat).toList, hlen with
  | [x, y, z, w], _ =>
    rw [h] at hread
    simp [basicRest, hread]

/-- A character is read from its escape. -/
lemma basicRest_escape (c : Char) (r : List Char) :
    basicRest false false ((escape c).toList ++ r) = prepend c (basicRest false false r) := by
  unfold escape
  split
  case h_8 h1 h2 h3 h4 h5 h6 h7 =>
    split
    case isTrue hc =>
      rw [String.toList_append]
      exact basicRest_hex4 c (by omega) r
    case isFalse hc =>
      have hplain : isPlain c := by
        simp only [isPlain, isText, Bool.and_eq_true, bne_iff_ne, Bool.or_eq_true]
        refine ⟨⟨Or.inr ?_, h6⟩, h7⟩
        simp
        omega
      simpa using basicRest_plain hplain r
  all_goals rfl

/-- If each character is read from a text of its own, all are read from their texts in a row. -/
lemma basicRest_flatMap {f : Char → List Char} {cs : List Char}
    (h : ∀ c ∈ cs, ∀ r, basicRest false false (f c ++ r) =
      prepend c (basicRest false false r)) (r : List Char) :
    basicRest false false (cs.flatMap f ++ '\x22' :: r) = some (cs, r) := by
  induction cs with
  | nil => rfl
  | cons c cs ih =>
    rw [List.flatMap_cons, List.append_assoc, h c List.mem_cons_self,
      ih fun c hc => h c (List.mem_cons_of_mem _ hc)]
    rfl

lemma basicRest_escapes (cs r : List Char) :
    basicRest false false (cs.flatMap (fun c => (escape c).toList) ++ '\x22' :: r) =
      some (cs, r) :=
  basicRest_flatMap (fun c _ => basicRest_escape c) r

/-- A text that needs no escapes is read as it is. -/
lemma basicRest_plains {cs : List Char} (h : ∀ c ∈ cs, isPlain c) (r : List Char) :
    basicRest false false (cs ++ '\x22' :: r) = some (cs, r) := by
  simpa using basicRest_flatMap (f := fun c => [c]) (fun c hc => basicRest_plain (h c hc)) r

/-- A text of one line in double quotes. -/
lemma string?_plains {text : String} (h : ∀ c ∈ text.toList, isPlain c) (r : List Char) :
    string? ('\x22' :: (text.toList ++ '\x22' :: '\n' :: r)) = some (text, '\n' :: r) := by
  have hread := basicRest_plains h ('\n' :: r)
  cases hcs : text.toList with
  | nil =>
    obtain rfl : text = "" := by simpa using hcs
    rfl
  | cons c cs =>
    have hc : c ≠ '\x22' := ne_of_kind (h c (by simp [hcs])) rfl
    have htext : String.ofList (c :: cs) = text := by rw [← hcs, String.ofList_toList]
    rw [hcs, List.cons_append] at hread
    rw [List.cons_append, string?, hread]
    · exact congrArg (fun t => some (t, '\n' :: r)) htext
    all_goals simp_all

/-! ### Strings in single quotes -/

lemma literalRest_literals {cs : List Char} (h : ∀ c ∈ cs, isLiteral c) (r : List Char) :
    literalRest false (cs ++ '\x27' :: r) = some (cs, r) := by
  induction cs with
  | nil => rfl
  | cons c cs ih =>
    have hc := h c List.mem_cons_self
    have hstep : literalRest false (c :: (cs ++ '\x27' :: r)) =
        prepend c (literalRest false (cs ++ '\x27' :: r)) := by
      have hbreak : c ≠ '\n' ∧ c ≠ '\r' := ⟨ne_of_kind hc rfl, ne_of_kind hc rfl⟩
      simp only [isLiteral, Bool.and_eq_true, bne_iff_ne] at hc
      rw [literalRest.eq_def]
      split <;> simp_all
    rw [List.cons_append, hstep, ih fun c hc => h c (List.mem_cons_of_mem _ hc)]
    rfl

/-! ### Keys -/

/-- A character that the text of a key can begin with. -/
def startsKey (c : Char) : Bool := isBare c || c == '\x22' || c == '\x27'

lemma exists_keyText (key : String) :
    ∃ c cs, (keyText key).toList = c :: cs ∧ startsKey c := by
  simp only [keyText]
  split_ifs with hbare hlit
  · cases hcs : key.toList with
    | nil => exact absurd hcs hbare.1
    | cons c cs =>
      have hc := List.all_eq_true.1 hbare.2 c (by simp [hcs])
      exact ⟨c, cs, rfl, by simp [startsKey, hc]⟩
  · exact ⟨'\x27', _, by simp [String.toList_append]; rfl, rfl⟩
  · exact ⟨'\x22', _, by simp [String.toList_append]; rfl, rfl⟩

lemma key?_bare {c : Char} (h : isBare c) (s : List Char) :
    key? (c :: s) =
      some (String.ofList ((c :: s).takeWhile isBare), (c :: s).dropWhile isBare) := by
  have hquotes : c ≠ '\x22' ∧ c ≠ '\x27' := ⟨ne_of_kind h rfl, ne_of_kind h rfl⟩
  rw [key?.eq_def]
  split <;> simp_all

lemma key?_basic (s : List Char) :
    key? ('\x22' :: s) = (basicRest false false s).map fun p => (String.ofList p.1, p.2) := rfl

lemma key?_literal (s : List Char) :
    key? ('\x27' :: s) = (literalRest false s).map fun p => (String.ofList p.1, p.2) := rfl

/-- **A key that was written is read again**, whatever characters it has. -/
theorem key?_keyText (key : String) (r : List Char) :
    key? ((keyText key).toList ++ ' ' :: r) = some (key, ' ' :: r) := by
  have hblank : isBare ' ' = false := rfl
  simp only [keyText]
  split_ifs with hbare hlit
  · obtain ⟨hne, hall⟩ := hbare
    rw [List.all_eq_true] at hall
    obtain ⟨c, cs, hcs⟩ := List.exists_cons_of_ne_nil hne
    rw [hcs, List.cons_append, key?_bare (hall c (by simp [hcs])), ← List.cons_append, ← hcs,
      List.takeWhile_append_of_pos hall, List.dropWhile_append_of_pos hall]
    simp [hblank, String.ofList_toList]
  · rw [List.all_eq_true] at hlit
    have hquote : ("'" ++ key ++ "'").toList ++ ' ' :: r =
        '\x27' :: (key.toList ++ '\x27' :: ' ' :: r) := by
      simp [String.toList_append]
    rw [hquote, key?_literal, literalRest_literals hlit.2]
    simp [String.ofList_toList]
  · have hquote : ("\"" ++ String.join (key.toList.map escape) ++ "\"").toList ++ ' ' :: r =
        '\x22' :: (key.toList.flatMap (fun c => (escape c).toList) ++ '\x22' :: ' ' :: r) := by
      simp [String.toList_append, String.toList_join, List.flatMap_map]
    rw [hquote, key?_basic, basicRest_escapes]
    simp [String.ofList_toList]

/-- Only some keys need quotes, and few need escapes. -/
example : keyText "008" = "008" ∧ keyText "+8" = "\"+8\"" ∧ keyText "\n" = "\"\\n\"" := by
  decide

lemma skipBlanks_cons {c : Char} (h : isBlank c = false) (s : List Char) :
    skipBlanks (c :: s) = c :: s := by
  simp [skipBlanks, h]

/-- One key, up to a character that is not the dot before another. -/
lemma path?_of_key? {c c' : Char} {s r r' : List Char} {k : String} (hc : isBlank c = false)
    (hkey : key? (c :: s) = some (k, r)) (hr : skipBlanks r = c' :: r') (hdot : c' ≠ '.') :
    path? (c :: s) = some ([k], c' :: r') := by
  simp only [path?, List.length_cons, dottedKeys?, skipBlanks_cons hc, hkey, hr,
    Option.bind_eq_bind, Option.bind_some]
  split
  case h_1 r'' heq =>
    cases heq
    exact absurd rfl hdot
  case h_2 => rfl

/-- The key of a line. -/
lemma path?_keyText (key : String) (r : List Char) :
    path? ((keyText key).toList ++ ' ' :: '=' :: r) = some ([key], '=' :: r) := by
  obtain ⟨c, cs, hcs, hstart⟩ := exists_keyText key
  have hblank : isBlank c = false := isBlank_of_kind hstart rfl rfl
  have hkey := key?_keyText key ('=' :: r)
  rw [hcs, List.cons_append] at hkey ⊢
  exact path?_of_key? hblank hkey rfl (by decide)

/-! ### Integers -/

lemma isDigitOf_ten {c : Char} (h : c.isDigit) :
    isDigitOf 10 c ∧ hexDigit? c = some (c.toNat - '0'.toNat) := by
  have hascii : c.toNat < 128 := by
    simp only [Char.isDigit, Bool.and_eq_true, decide_eq_true_eq] at h
    exact Nat.lt_of_le_of_lt (UInt32.le_iff_toNat_le.1 h.2) (by decide)
  refine forall_ascii (P := fun c => c.isDigit → isDigitOf 10 c ∧
    hexDigit? c = some (c.toNat - '0'.toNat)) ?_ c hascii h
  decide

/-- Digits are taken up to the end of the line. -/
lemma digitRun_digits {ds : List Char} (h : ∀ c ∈ ds, c.isDigit) (r : List Char) :
    digitRun (isDigitOf 10) (ds ++ '\n' :: r) = (ds, '\n' :: r) := by
  induction ds with
  | nil => rfl
  | cons c ds ih =>
    have hc := h c List.mem_cons_self
    have hunder : c ≠ '_' := ne_of_kind hc rfl
    rw [List.cons_append, digitRun.eq_def]
    split
    case h_1 heq => cases heq
    case h_2 heq => exact absurd (List.cons.inj heq).1 hunder
    case h_3 heq =>
      obtain ⟨rfl, rfl⟩ := List.cons.inj heq
      rw [if_pos (isDigitOf_ten hc).1, ih fun c hc => h c (List.mem_cons_of_mem _ hc)]

/-- Only zero begins with the digit zero. -/
lemma exists_toDigits {n : Nat} (h : 0 < n) : ∃ c ds, Nat.toDigits 10 n = c :: ds ∧ c ≠ '0' := by
  induction n using Nat.strongRecOn with
  | ind n ih =>
    rw [Nat.toDigits_eq_if (by decide)]
    split_ifs with hlt
    · refine ⟨n.digitChar, [], rfl, ?_⟩
      rw [Ne, Nat.digitChar_eq_zero]
      omega
    · obtain ⟨c, ds, hds, hc⟩ := ih (n / 10) (by omega) (by omega)
      exact ⟨c, ds ++ [(n % 10).digitChar], by rw [hds]; rfl, hc⟩

lemma decimal?_toDigits (n : Nat) (r : List Char) :
    decimal? (Nat.toDigits 10 n ++ '\n' :: r) = some (n, '\n' :: r) := by
  rcases Nat.eq_zero_or_pos n with rfl | hn
  · rfl
  obtain ⟨c, ds, hds, hc⟩ := exists_toDigits hn
  have hdigits : ∀ d ∈ Nat.toDigits 10 n, d.isDigit :=
    fun d hd => Nat.isDigit_of_mem_toDigits (by decide) (by decide) hd
  have hvalue : (Nat.toDigits 10 n).foldl (fun n c => 10 * n + (hexDigit? c).getD 0) 0 = n := by
    refine Eq.trans ?_ (Nat.ofDigitChars_toDigits (b := 10) (by decide) (by decide))
    refine List.foldl_ext _ _ _ fun m d hd => ?_
    rw [(isDigitOf_ten (hdigits d hd)).2]
    rfl
  have hrun := digitRun_digits hdigits r
  rw [hds] at hdigits hvalue hrun ⊢
  rw [List.cons_append] at hrun ⊢
  rw [decimal?.eq_def]
  split
  case h_1 heq => exact absurd (List.cons.inj heq).1 hc
  case h_2 =>
    rw [number?, if_pos (isDigitOf_ten (hdigits c List.mem_cons_self)).1, hrun]
    exact congrArg (fun m => some (m, '\n' :: r)) hvalue

/-- A number begins with a digit. -/
lemma exists_repr (n : Nat) : ∃ c ds, n.repr.toList = c :: ds ∧ c.isDigit := by
  obtain ⟨c, ds, hds⟩ := List.exists_cons_of_ne_nil (Nat.toDigits_ne_nil (b := 10) (n := n))
  refine ⟨c, ds, by rw [Nat.toList_repr, hds], ?_⟩
  exact Nat.isDigit_of_mem_toDigits (b := 10) (n := n) (by decide) (by decide) (by simp [hds])

/-- **A number that was written is read again** if it is not too large. -/
theorem integer?_repr {n : Nat} (h : n ≤ maxInteger) (r : List Char) :
    integer? (n.repr.toList ++ '\n' :: r) = some ((n : Int), '\n' :: r) := by
  rcases Nat.eq_zero_or_pos n with rfl | hn
  · rfl
  have hdec := decimal?_toDigits n r
  obtain ⟨c, ds, hds, hdigit⟩ := exists_repr n
  have hzero : c ≠ '0' := by
    obtain ⟨c', ds', hds', hc'⟩ := exists_toDigits hn
    rw [Nat.toList_repr, hds'] at hds
    exact (List.cons.inj hds).1 ▸ hc'
  have hsign : c ≠ '-' ∧ c ≠ '+' := ⟨ne_of_kind hdigit rfl, ne_of_kind hdigit rfl⟩
  have hrange : -(maxInteger : Int) - 1 ≤ n ∧ (n : Int) ≤ maxInteger := by omega
  rw [← Nat.toList_repr, hds, List.cons_append] at hdec
  rw [hds, List.cons_append, integer?, hdec]
  · exact if_pos hrange
  all_goals simp_all

end FixedInt.Toml
