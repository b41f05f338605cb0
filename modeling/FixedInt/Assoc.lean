/-!
Lists of keys with values, in the order in which the keys were first given. Putting a value under
a key never makes a second entry for it.
-/

namespace FixedInt.Assoc

variable {α : Type}

def keys (es : List (String × α)) : List String := es.map Prod.fst

/-- Puts a value under a key, in the place of the old one or at the end. -/
def put (key : String) (value : α) : List (String × α) → List (String × α)
  | [] => [(key, value)]
  | (k, v) :: es => if k = key then (key, value) :: es else (k, v) :: put key value es

theorem mem_keys_put {k key : String} {value : α} {es : List (String × α)} :
    k ∈ keys (put key value es) ↔ k = key ∨ k ∈ keys es := by
  induction es with
  | nil => simp [put, keys]
  | cons e es ih =>
    by_cases h : e.1 = key
    · simp [put, keys, h]
    · simp only [put, keys, h, if_false, List.map_cons, List.mem_cons] at ih ⊢
      rw [ih]
      constructor
      · rintro (h | h | h) <;> simp [h]
      · rintro (h | h | h) <;> simp [h]

theorem nodup_put {key : String} {value : α} {es : List (String × α)} (h : (keys es).Nodup) :
    (keys (put key value es)).Nodup := by
  induction es with
  | nil => simp [put, keys]
  | cons e es ih =>
    have ⟨hne, hrest⟩ := List.nodup_cons.1 h
    by_cases hk : e.1 = key
    · simpa [put, keys, hk] using h
    · have hmem : e.1 ∉ keys (put key value es) := by
        rw [mem_keys_put]
        rintro (h | h)
        · exact hk h
        · exact hne h
      simpa [put, keys, hk] using List.nodup_cons.2 ⟨hmem, ih hrest⟩

/-- A key that is not there is put at the end. -/
theorem put_of_not_mem {key : String} {value : α} {es : List (String × α)}
    (h : key ∉ keys es) : put key value es = es ++ [(key, value)] := by
  induction es with
  | nil => rfl
  | cons e es ih =>
    simp only [keys, List.map_cons, List.mem_cons, not_or] at h
    rw [put, if_neg (Ne.symm h.1), ih h.2]
    rfl

/-- Where no key stands twice, a key in the middle is not among those before it. -/
theorem not_mem_keys_of_nodup {es es' : List (String × α)} {e : String × α}
    (h : (keys (es ++ e :: es')).Nodup) : e.1 ∉ keys es := by
  rw [keys, List.map_append, List.map_cons, List.nodup_append] at h
  exact fun he => h.2.2 e.1 he e.1 List.mem_cons_self rfl

end FixedInt.Assoc
