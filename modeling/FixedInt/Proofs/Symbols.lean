import FixedInt.Assoc
import FixedInt.Proofs.ByName
import Mathlib.Data.List.Induction

/-!
The symbols of intrinsics. A symbol is put together from the name of an operation and the number of
bits of a width, or from the name of a predicate, and an intrinsic is found by its own symbol and by
no other text. A table into which all intrinsics are entered one after another keeps each of them,
and an intrinsic is found as it stands there.
-/

namespace FixedInt

/-! ### Names of operations and predicates -/

namespace ArithOp

lemma mem_all (op : ArithOp) : op ∈ all := by cases op <;> decide

lemma nodup_names : (all.map name).Nodup := by decide +kernel

lemma ofName?_eq_some_iff {s : String} {op : ArithOp} : ofName? s = some op ↔ op.name = s :=
  find?_name_eq_some_iff nodup_names mem_all

end ArithOp

namespace Predicate

lemma mem_all (p : Predicate) : p ∈ all := by cases p <;> decide

lemma nodup_names : (all.map name).Nodup := by decide +kernel

lemma ofName?_eq_some_iff {s : String} {p : Predicate} : ofName? s = some p ↔ p.name = s :=
  find?_name_eq_some_iff nodup_names mem_all

end Predicate

namespace Intrinsic

/-! ### How symbols are put together -/

/-- The text is a symbol of the intrinsic. -/
inductive Symbol : String → Intrinsic → Prop where
  | arith {m : String} {op : ArithOp} (hm : ArithOp.ofName? m = some op) (w : Width) :
      Symbol ("llvm." ++ m ++ ".with.overflow.i" ++ toString w.bits) (.arith op w)
  | compare {m : String} {p : Predicate} (hm : Predicate.ofName? m = some p) :
      Symbol ("icmp." ++ m) (.compare p)
  | assume : Symbol "llvm.assume" .assume

lemma name_arith (op : ArithOp) (w : Width) :
    (arith op w).name = "llvm." ++ op.name ++ ".with.overflow.i" ++ toString w.bits := by
  have hjoin : ".with.overflow.i" = ".with.overflow." ++ "i" := by decide
  rw [hjoin]
  simp [name, toString, String.append_assoc, -String.reduceAppend]

lemma name_compare (p : Predicate) : (compare p).name = "icmp." ++ p.name := by
  simp [name, toString]

/-- An intrinsic has one symbol, which is its name. -/
theorem symbol_iff {s : String} {i : Intrinsic} : Symbol s i ↔ i.name = s := by
  constructor
  · rintro (⟨hm, w⟩ | hm | -)
    · rw [name_arith, ArithOp.ofName?_eq_some_iff.1 hm]
    · rw [name_compare, Predicate.ofName?_eq_some_iff.1 hm]
    · rfl
  · rintro rfl
    cases i with
    | arith op w =>
      rw [name_arith]
      exact .arith (ArithOp.ofName?_eq_some_iff.2 rfl) w
    | compare p =>
      rw [name_compare]
      exact .compare (Predicate.ofName?_eq_some_iff.2 rfl)
    | assume => exact .assume

/-! ### A table filled entry by entry -/

/-- Enters an intrinsic under its name. What stood under that name before is replaced. -/
def enter (t : List (String × Intrinsic)) (i : Intrinsic) : List (String × Intrinsic) :=
  Assoc.put i.name i t

/-- The table after intrinsics were entered one after another. -/
def entered (is : List Intrinsic) : List (String × Intrinsic) := is.foldl enter []

/-- An intrinsic under its name. -/
def entry (i : Intrinsic) : String × Intrinsic := (i.name, i)

lemma keys_entries (is : List Intrinsic) : Assoc.keys (is.map entry) = is.map name := by
  simp [Assoc.keys, entry]

lemma entered_concat (is : List Intrinsic) (i : Intrinsic) :
    entered (is ++ [i]) = enter (entered is) i := by
  rw [entered, List.foldl_append]
  rfl

/-- Where the names are different, each intrinsic gets an entry of its own. -/
theorem entered_of_nodup {is : List Intrinsic} (h : (is.map name).Nodup) :
    entered is = is.map entry := by
  induction is using List.reverseRecOn with
  | nil => rfl
  | append_singleton is i ih =>
    have hbefore : (is.map name).Nodup := by
      rw [List.map_append] at h
      exact h.of_append_left
    have hfresh : i.name ∉ Assoc.keys (is.map entry) := by
      rw [← keys_entries, List.map_append] at h
      exact Assoc.not_mem_keys_of_nodup h
    rw [entered_concat, ih hbefore, enter, Assoc.put_of_not_mem hfresh, List.map_append]
    rfl

lemma lookup_entries (is : List Intrinsic) (s : String) :
    (is.map entry).lookup s = is.find? (·.name == s) := by
  induction is with
  | nil => rfl
  | cons i is ih =>
    rw [List.map_cons, entry, List.lookup_cons, List.find?_cons, ih, Bool.beq_comm]

/-! ### Finding an intrinsic -/

/-- **Symbols are exact.** A text is looked up to an intrinsic exactly if it is the intrinsic's
name, that is, if it is put together in one of the ways of a symbol; every other text fails and is
named. No two intrinsics have the same name. So when all of them are entered into a table, none
finds its name taken, and what the table has for a text is what the text is looked up to. -/
theorem lookup_exact (s : String) :
    (∀ i : Intrinsic, lookup s = .ok i ↔ s = toString i) ∧
      (∀ i, lookup s = .ok i ↔ Symbol s i) ∧
      (∀ e, lookup s = .error e ↔ e = .unknownIntrinsic s ∧ ∀ i : Intrinsic, s ≠ toString i) ∧
      Function.Injective (toString : Intrinsic → String) ∧
      (∀ before i after, all = before ++ i :: after → i.name ∉ Assoc.keys (entered before)) ∧
      (entered all).lookup s = (lookup s).toOption := by
  refine ⟨fun i => lookup_eq_ok.trans eq_comm, fun i => lookup_eq_ok.trans symbol_iff.symm,
    fun e => ?_, name_injective, fun before i after hall => ?_, ?_⟩
  · constructor
    · intro h
      have hno : ∀ i : Intrinsic, i.name ≠ s := fun i hi => by
        rw [lookup_eq_ok.2 hi] at h
        cases h
      rw [lookup_of_no_name hno] at h
      cases h
      exact ⟨rfl, fun i => (hno i).symm⟩
    · rintro ⟨rfl, hno⟩
      exact lookup_of_no_name fun i => (hno i).symm
  · have hnames := nodup_names
    rw [hall, ← keys_entries, List.map_append, List.map_cons] at hnames
    have hbefore : (before.map name).Nodup := by
      have hsub : before.Sublist all := hall ▸ List.sublist_append_left before _
      exact nodup_names.sublist (hsub.map name)
    rw [entered_of_nodup hbefore]
    exact Assoc.not_mem_keys_of_nodup hnames
  · rw [entered_of_nodup nodup_names, lookup_entries]
    change ofName? s = _
    unfold lookup
    cases ofName? s <;> rfl

end Intrinsic

end FixedInt
