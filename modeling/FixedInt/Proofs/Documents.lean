import FixedInt.Settings.Document
import FixedInt.Proofs.Lexing
import FixedInt.Proofs.Overrides

/-!
Settings that are written are read again. Each line of a document says one statement or none, the
statements build the table that the settings fill, and the settings of that table are the ones that
were written. The keys are checked only then.
-/

namespace FixedInt

namespace Toml

/-! ### Values -/

lemma value?_integer {m : Nat} (h : m ≤ maxInteger) (n : Nat) (r : List Char) :
    value? (n + 1) (m.repr.toList ++ '\n' :: r) = some (.integer m, '\n' :: r) := by
  have hread := integer?_repr h r
  obtain ⟨c, ds, hds, hdigit⟩ := exists_repr m
  have hc : c ≠ '[' ∧ c ≠ '\x7b' ∧ c ≠ '\x22' ∧ c ≠ '\x27' :=
    ⟨ne_of_kind hdigit rfl, ne_of_kind hdigit rfl, ne_of_kind hdigit rfl, ne_of_kind hdigit rfl⟩
  rw [hds, List.cons_append] at hread ⊢
  rw [value?, if_neg (by simp [hc]), hread]
  · rfl
  all_goals simp_all

lemma value?_string {text : String} (h : ∀ c ∈ text.toList, isPlain c) (n : Nat) (r : List Char) :
    value? (n + 1) ('\x22' :: (text.toList ++ '\x22' :: '\n' :: r)) =
      some (.string text, '\n' :: r) := by
  rw [value?, if_pos (Or.inl rfl), string?_plains h]
  · rfl
  all_goals simp_all

/-! ### Lines -/

/-- Read at the start of a document, the line says these statements. -/
def Says (line : String) (sts : List Statement) : Prop :=
  ∀ (n : Nat) (r : List Char),
    statements? (n + 1) (line.toList ++ '\n' :: r) = (statements? n r).map (sts ++ ·)

lemma lineEnd?_newline (r : List Char) : lineEnd? ('\n' :: r) = some r := rfl

lemma says_empty : Says "" [] := by
  intro n r
  have hnone : (([] : List Statement) ++ ·) = id := rfl
  rw [hnone, Option.map_id]
  rfl

/-- A character that a line with a statement can begin with. -/
def startsLine (c : Char) : Bool := startsKey c || c == '['

lemma lineEnd?_eq_none {c : Char} (hblank : isBlank c = false)
    (hne : c ≠ '#' ∧ c ≠ '\n' ∧ c ≠ '\r') (s : List Char) : lineEnd? (c :: s) = none := by
  have hcomment : skipComment (c :: s) = c :: s := by
    rw [skipComment.eq_def]
    split <;> simp_all
  have hbreak : lineBreak? (c :: s) = none := by
    rw [lineBreak?.eq_def]
    split <;> simp_all
  rw [lineEnd?, skipBlanks_cons hblank, hcomment]
  exact hbreak

lemma says_of_statement? {line : String} {st : Statement} {c : Char} {cs : List Char}
    (hcs : line.toList = c :: cs) (hc : startsLine c)
    (h : ∀ r, statement? (line.toList ++ '\n' :: r) = some (st, r)) : Says line [st] := by
  intro n r
  have hread := h r
  have hblank : isBlank c = false := isBlank_of_kind hc rfl rfl
  have hne : c ≠ '#' ∧ c ≠ '\n' ∧ c ≠ '\r' :=
    ⟨ne_of_kind hc rfl, ne_of_kind hc rfl, ne_of_kind hc rfl⟩
  rw [hcs, List.cons_append] at hread ⊢
  rw [statements?, skipBlanks_cons hblank]
  simp only [lineEnd?_eq_none hblank hne, hread, Option.bind_eq_bind, Option.bind_some]
  cases statements? n r <;> rfl

lemma statement?_entry {c : Char} {s r r' r'' : List Char} {path : List String} {v : Node}
    (hc : c ≠ '[') (hpath : path? (c :: s) = some (path, '=' :: r))
    (hvalue : ∀ n, value? (n + 1) (skipBlanks r) = some (v, r')) (hend : lineEnd? r' = some r'') :
    statement? (c :: s) = some (.entry path v, r'') := by
  rw [statement?]
  · simp [hpath, hvalue, hend]
  · simp_all

/-- A key and a value on a line of their own. -/
lemma says_entry {line key : String} {v : Node} {c : Char} {cs : List Char}
    (hline : line.toList = (keyText key).toList ++ ' ' :: '=' :: ' ' :: c :: cs)
    (hc : isBlank c = false)
    (hvalue : ∀ n r, value? (n + 1) (c :: (cs ++ '\n' :: r)) = some (v, '\n' :: r)) :
    Says line [.entry [key] v] := by
  obtain ⟨k, ks, hks, hstart⟩ := exists_keyText key
  have hk : k ≠ '[' := ne_of_kind hstart rfl
  rw [hks, List.cons_append] at hline
  refine says_of_statement? hline (by simp [startsLine, hstart]) fun r => ?_
  have hpath := path?_keyText key (' ' :: c :: (cs ++ '\n' :: r))
  have hskip : skipBlanks (' ' :: c :: (cs ++ '\n' :: r)) = c :: (cs ++ '\n' :: r) :=
    skipBlanks_cons hc _
  rw [hks] at hpath
  rw [hline, List.cons_append, List.append_assoc]
  exact statement?_entry hk hpath (fun n => by rw [hskip, hvalue]) (lineEnd?_newline r)

lemma says_integerLine (key : String) {n : Nat} (h : n ≤ maxInteger) :
    Says (integerLine key n) [.entry [key] (.integer n)] := by
  obtain ⟨c, ds, hds, hdigit⟩ := exists_repr n
  have hblank : isBlank c = false := isBlank_of_kind hdigit rfl rfl
  have hline : (integerLine key n).toList =
      (keyText key).toList ++ ' ' :: '=' :: ' ' :: c :: ds := by
    simp [integerLine, String.toList_append, ← hds]
  refine says_entry hline hblank fun m r => ?_
  rw [← List.cons_append, ← hds]
  exact value?_integer h m r

lemma says_stringLine (key : String) {text : String} (h : ∀ c ∈ text.toList, isPlain c) :
    Says (stringLine key text) [.entry [key] (.string text)] := by
  have hline : (stringLine key text).toList =
      (keyText key).toList ++ ' ' :: '=' :: ' ' :: '\x22' :: (text.toList ++ ['\x22']) := by
    simp [stringLine, String.toList_append]
  refine says_entry hline rfl fun m r => ?_
  rw [List.append_assoc]
  exact value?_string h m r

-- all characters are known up to the line break, and none is looked at behind it
lemma says_header : Says "[flag_offsets]" [.header ["flag_offsets"]] :=
  says_of_statement? (c := '[') rfl rfl fun _ => rfl

/-- A document of lines. -/
def document (lines : List String) : String := String.join (lines.map (· ++ "\n"))

lemma toList_document_cons (line : String) (lines : List String) :
    (document (line :: lines)).toList = line.toList ++ '\n' :: (document lines).toList := by
  simp [document, String.toList_join]

lemma statements?_document {lines : List String} {stss : List (List Statement)}
    (h : List.Forall₂ Says lines stss) {n : Nat} (hn : lines.length < n) :
    statements? n (document lines).toList = some stss.flatten := by
  -- every line takes one from the bound on their number, and the end of the text does too
  induction h generalizing n with
  | nil =>
    obtain ⟨n, rfl⟩ := Nat.exists_eq_succ_of_ne_zero (by simp at hn; omega : n ≠ 0)
    rfl
  | @cons line sts lines stss hline _ ih =>
    obtain ⟨n, rfl⟩ := Nat.exists_eq_succ_of_ne_zero (by simp at hn; omega : n ≠ 0)
    rw [toList_document_cons, hline, ih (by simpa using hn)]
    rfl

lemma length_le_document (lines : List String) :
    lines.length ≤ (document lines).toList.length := by
  induction lines with
  | nil => exact Nat.zero_le _
  | cons line lines ih =>
    rw [toList_document_cons, List.length_append, List.length_cons, List.length_cons]
    omega

/-! ### Flag offsets -/

/-- The statement of a flag offset. -/
def offsetStatement (e : String × Nat) : Statement := .entry [e.1] (.integer e.2)

/-- The entry of a flag offset. -/
def offsetEntry (e : String × Nat) : String × Node := (e.1, .integer e.2)

lemma keys_offsetEntries (es : List (String × Nat)) :
    Assoc.keys (es.map offsetEntry) = Assoc.keys es := by
  simp [Assoc.keys, offsetEntry, Function.comp_def]

lemma insert_offset {es : List (String × Nat)} {e : String × Nat} (h : e.1 ∉ Assoc.keys es) :
    Entries.insert [e.1] (.integer e.2) (es.map offsetEntry) =
      some ((es ++ [e]).map offsetEntry) := by
  rw [← keys_offsetEntries] at h
  have hnone : (es.map offsetEntry).lookup e.1 = none := by
    rw [List.lookup_eq_none_iff]
    intro p hp
    rw [bne_iff_ne]
    rintro heq
    exact h (heq ▸ List.mem_map_of_mem hp)
  rw [Entries.insert, hnone, Assoc.put_of_not_mem h, List.map_append]
  rfl

lemma entryOffsets?_offsetEntries (es : List (String × Nat)) :
    Node.entryOffsets? (es.map offsetEntry) = some es := by
  induction es with
  | nil => rfl
  | cons e es ih =>
    rw [Node.entryOffsets?] at ih ⊢
    rw [List.map_cons, List.mapM_cons, ih]
    rfl

end Toml

lemma FlagOffsets.entries_foldl_insert (es : List (String × Nat)) (o : FlagOffsets)
    (h : (Assoc.keys (o.entries ++ es)).Nodup) :
    (es.foldl (fun o e => o.insert e.1 e.2) o).entries = o.entries ++ es := by
  induction es generalizing o with
  | nil => simp
  | cons e es ih =>
    have hput : (o.insert e.1 e.2).entries = o.entries ++ [e] :=
      Assoc.put_of_not_mem (Assoc.not_mem_keys_of_nodup h)
    rw [List.foldl_cons, ih, hput, List.append_assoc]
    · rfl
    · rw [hput, List.append_assoc]
      exact h

lemma FlagOffsets.ofList_entries (o : FlagOffsets) : ofList o.entries = o := by
  have hentries : (ofList o.entries).entries = o.entries :=
    entries_foldl_insert o.entries empty o.nodup
  generalize ofList o.entries = o' at hentries ⊢
  cases o
  cases o'
  cases hentries
  rfl

namespace Settings

open Toml

/-! ### The table of settings -/

/-- The table of settings with these entries for the flag offsets. -/
def tableWith (s : Settings) (offsets : Entries) : Entries :=
  [("flag_repr", .string s.flagStorage.name), ("assume_policy", .string s.assumptionPolicy.name),
    ("flag_offsets", .table .headed offsets)]

/-- What the lines before the flag offsets say, one by one. -/
def headStatements (s : Settings) : List (List Statement) :=
  [[.entry ["flag_repr"] (.string s.flagStorage.name)],
    [.entry ["assume_policy"] (.string s.assumptionPolicy.name)], [], [.header ["flag_offsets"]]]

/-- What all lines say. -/
def statements (s : Settings) : List Statement :=
  s.headStatements.flatten ++ s.flagOffsets.entries.map offsetStatement

lemma updateAt_offsets (s : Settings) (f : Entries → Option Entries) (offsets : Entries) :
    (s.tableWith offsets).updateAt f ["flag_offsets"] = (f offsets).map s.tableWith := rfl

/-- Offsets under new keys are put at the end of the table, one after another. -/
lemma foldlM_offsetStatements (s : Settings) (es front : List (String × Nat))
    (h : (Assoc.keys (front ++ es)).Nodup) :
    (es.map offsetStatement).foldlM Statement.apply
        (["flag_offsets"], s.tableWith (front.map offsetEntry)) =
      some (["flag_offsets"], s.tableWith ((front ++ es).map offsetEntry)) := by
  induction es generalizing front with
  | nil => simp
  | cons e es ih =>
    have hstep : (offsetStatement e).apply (["flag_offsets"], s.tableWith (front.map offsetEntry)) =
        some (["flag_offsets"], s.tableWith ((front ++ [e]).map offsetEntry)) := by
      have hinsert := insert_offset (Assoc.not_mem_keys_of_nodup h)
      rw [offsetStatement, Statement.apply, updateAt_offsets, hinsert]
      rfl
    rw [List.map_cons, List.foldlM_cons, hstep]
    have hrest := ih (front ++ [e])
    rw [List.append_assoc] at hrest
    exact hrest h

lemma build?_statements (s : Settings) :
    build? s.statements = some (s.tableWith (s.flagOffsets.entries.map offsetEntry)) := by
  have hhead : s.headStatements.flatten.foldlM Statement.apply ([], []) =
      some (["flag_offsets"], s.tableWith []) := rfl
  have hrest := s.foldlM_offsetStatements s.flagOffsets.entries [] s.flagOffsets.nodup
  rw [build?, statements, List.foldlM_append, hhead]
  exact congrArg (Option.map Prod.snd) hrest

lemma ofEntries?_tableWith (s : Settings) :
    ofEntries? (s.tableWith (s.flagOffsets.entries.map offsetEntry)) = some s := by
  have hstorage : FlagStorage.ofName? s.flagStorage.name = some s.flagStorage := by
    cases s.flagStorage <;> rfl
  have hpolicy : AssumptionPolicy.ofName? s.assumptionPolicy.name = some s.assumptionPolicy := by
    cases s.assumptionPolicy <;> rfl
  have hoffsets : Node.offsets? (.table .headed (s.flagOffsets.entries.map offsetEntry)) =
      some s.flagOffsets := by
    rw [Node.offsets?, entryOffsets?_offsetEntries, Option.map_some, FlagOffsets.ofList_entries]
  have hset : ∀ offsets : Entries, ofEntries? (s.tableWith offsets) = (do
      let flagStorage ← FlagStorage.ofName? s.flagStorage.name
      let assumptionPolicy ← AssumptionPolicy.ofName? s.assumptionPolicy.name
      let flagOffsets ← Node.offsets? (.table .headed offsets)
      return { flagStorage, flagOffsets, assumptionPolicy }) := fun _ => rfl
  rw [hset, hstorage, hpolicy, hoffsets]
  rfl

/-! ### Writing and reading -/

/-- What every line of a document says. -/
lemma says_lines {s : Settings} (h : ∀ e ∈ s.flagOffsets.entries, e.2 ≤ maxInteger) :
    List.Forall₂ Says (s.headLines ++ s.offsetLines)
      (s.headStatements ++ s.flagOffsets.entries.map fun e => [offsetStatement e]) := by
  have hstorage : s.flagStorage.name.toList.all isPlain = true := by
    cases s.flagStorage <;> rfl
  have hpolicy : s.assumptionPolicy.name.toList.all isPlain = true := by
    cases s.assumptionPolicy <;> rfl
  rw [List.all_eq_true] at hstorage hpolicy
  refine List.rel_append ?_ ?_
  · exact .cons (says_stringLine _ hstorage) (.cons (says_stringLine _ hpolicy)
      (.cons says_empty (.cons says_header .nil)))
  · rw [offsetLines, List.forall₂_map_left_iff, List.forall₂_map_right_iff, List.forall₂_same]
    exact fun e he => says_integerLine e.1 (h e he)

/-- A document begins with the key of the flag storage, not with a byte order mark. -/
lemma skipMark_document (s : Settings) :
    skipMark (document (s.headLines ++ s.offsetLines)).toList =
      (document (s.headLines ++ s.offsetLines)).toList := by
  have hkey : keyText "flag_repr" = "flag_repr" := by decide
  rw [headLines, List.cons_append, toList_document_cons, stringLine, hkey]
  simp only [String.toList_append, List.append_assoc]
  rfl

lemma flatten_statements (s : Settings) :
    (s.headStatements ++ s.flagOffsets.entries.map fun e => [offsetStatement e]).flatten =
      s.statements := by
  rw [List.flatten_append, statements, ← List.flatMap_def, ← List.map_eq_flatMap]

lemma read?_document {s : Settings} (h : ∀ e ∈ s.flagOffsets.entries, e.2 ≤ maxInteger) :
    read? (document (s.headLines ++ s.offsetLines)) =
      some (s.tableWith (s.flagOffsets.entries.map offsetEntry)) := by
  have hfuel := length_le_document (s.headLines ++ s.offsetLines)
  have hread := statements?_document (says_lines h) (Nat.lt_succ_of_le hfuel)
  rw [flatten_statements] at hread
  simp only [read?, skipMark_document]
  rw [hread]
  exact s.build?_statements

/-- Reading what was written comes down to checking the keys. -/
theorem ofToml_document {s : Settings} (h : ∀ e ∈ s.flagOffsets.entries, e.2 ≤ maxInteger) :
    ofToml (document (s.headLines ++ s.offsetLines)) = s.overrides.map fun _ => s := by
  rw [ofToml, read?_document h, Option.bind_eq_bind, Option.bind_some, ofEntries?_tableWith]
  rfl

/-- **Settings that are written are read again.** The flag offsets may be written in any order, and
several keys may stand for one width. If each of them stands for some width, reading gives the same
settings; if not, it names one that stands for none. Nothing is written if an offset is too large
for a document, and only then. -/
theorem ofToml_toToml (s t : Settings) (h : t.Same s) :
    (t.toToml? = none ↔ ∃ e ∈ s.flagOffsets.entries, maxInteger < e.2) ∧
    ((∀ e ∈ s.flagOffsets.entries, e.2 ≤ maxInteger) → ∃ text, t.toToml? = some text ∧
      (s.KeysValid → ∃ u, ofToml text = .ok u ∧ u.Same s) ∧
      (¬ s.KeysValid → ∃ e ∈ s.flagOffsets.entries, keyWidth? e.1 = none ∧
        ofToml text = .error (.invalidKey e.1))) := by
  have hmem : ∀ e, e ∈ s.flagOffsets.entries ↔ e ∈ t.flagOffsets.entries :=
    fun e => h.2.1.mem_iff.symm
  simp only [← keysValid_congr h, hmem]
  refine ⟨?_, fun hfit => ⟨document (t.headLines ++ t.offsetLines), ?_, fun hkeys => ?_,
    fun hkeys => ?_⟩⟩
  · simp [toToml?]
  · rw [toToml?, if_pos (by simpa using hfit)]
    rfl
  · exact ⟨t, by rw [ofToml_document hfit, overrides_of_valid hkeys]; rfl, h⟩
  · obtain ⟨e, he, hnone, herror⟩ := overrides_of_invalid hkeys
    exact ⟨e, he, hnone, by rw [ofToml_document hfit, herror]; rfl⟩

/-- The width 8 under two keys and the largest offset of a document. -/
theorem ofToml_toToml_spellings :
    (∃ text, toToml? ⟨.oneByte, .ofList [("008", 8), ("16", maxInteger), ("+8", 4)], .warn⟩ =
        some text ∧ ∃ u, ofToml text = .ok u ∧
          u.Same ⟨.oneByte, .ofList [("+8", 4), ("008", 8), ("16", maxInteger)], .warn⟩) ∧
    (∃ text, toToml? ⟨.oneByte, .ofList [("+8", 4), ("-8", 4)], .warn⟩ = some text ∧
      ofToml text = .error (.invalidKey "-8")) ∧
    toToml? ⟨.oneByte, .ofList [("+8", maxInteger + 1)], .warn⟩ = none := by
  refine ⟨?_, ?_, ?_⟩
  · obtain ⟨text, htext, hread, -⟩ := (ofToml_toToml
      ⟨.oneByte, .ofList [("+8", 4), ("008", 8), ("16", maxInteger)], .warn⟩
      ⟨.oneByte, .ofList [("008", 8), ("16", maxInteger), ("+8", 4)], .warn⟩ (by decide)).2
      (by decide)
    exact ⟨text, htext, hread (by decide)⟩
  · obtain ⟨text, htext, -, hread⟩ := (ofToml_toToml
      ⟨.oneByte, .ofList [("-8", 4), ("+8", 4)], .warn⟩
      ⟨.oneByte, .ofList [("+8", 4), ("-8", 4)], .warn⟩ (by decide)).2 (by decide)
    obtain ⟨e, he, hnone, herror⟩ := hread (by decide)
    have hkey : ∀ e ∈ (FlagOffsets.ofList [("-8", 4), ("+8", 4)]).entries,
        keyWidth? e.1 = none → e.1 = "-8" := by decide
    exact ⟨text, htext, hkey e he hnone ▸ herror⟩
  · exact (ofToml_toToml ⟨.oneByte, .ofList [("+8", maxInteger + 1)], .warn⟩ _ (by decide)).1.2
      (by decide)

end Settings

end FixedInt
