import FixedInt.Proofs.Comparing
import FixedInt.Proofs.Native

/-!
Walking over the lanes of a vector. However often a cursor is asked, it gives the lanes out in their
order, each once, and nothing after the last one, and it knows how many are to come. A vector that
is made from words, or from native integers, has their low bits as its lanes, and the lanes that are
collected from it make it again.
-/

namespace FixedInt

/-! ### Cursors -/

namespace LaneCursor

/-- All lanes still to come, taken until the cursor gives nothing. -/
def collect (c : LaneCursor) : List UInt64 :=
  match _h : c.next with
  | (some b, c') => b :: c'.collect
  | (none, _) => []
termination_by c.remaining
decreasing_by exact remaining_lt_of_next ‹_›

theorem collect_eq_rest (c : LaneCursor) : c.collect = c.rest := by
  fun_induction collect c with
  | case1 c b c' h ih => rw [rest_of_next_some h, ih]
  | case2 c c' h => rw [rest_of_next_none h]

/-- The cursor has not gone past the end of its vector, so that the lanes to come can be counted by
a subtraction. -/
def InVector (c : LaneCursor) : Prop := c.index ≤ c.vector.length

lemma inVector_cursor (v : LaneVector) : v.cursor.InVector := Nat.zero_le _

variable {c c' : LaneCursor}

/-- A request that gives a lane goes on by one. -/
lemma of_next_some {b : UInt64} (h : c.next = (some b, c')) :
    c.index < c.vector.length ∧ c' = ⟨c.vector, c.index + 1⟩ := by
  unfold next at h
  split at h
  · next hb =>
    cases h
    exact ⟨(List.getElem?_eq_some_iff.1 hb).1, rfl⟩
  · cases h

/-- A request that gives nothing leaves the cursor behind the last lane. -/
lemma of_next_none (h : c.next = (none, c')) : c.vector.length ≤ c.index ∧ c' = c := by
  unfold next at h
  split at h
  · cases h
  · next hb =>
    cases h
    exact ⟨List.getElem?_eq_none_iff.1 hb, rfl⟩

/-- No request goes past the end. -/
lemma InVector.next (hc : c.InVector) {lane : Option UInt64} (h : c.next = (lane, c')) :
    c'.InVector := by
  cases lane with
  | none =>
    obtain ⟨-, rfl⟩ := of_next_none h
    exact hc
  | some b =>
    obtain ⟨hlt, rfl⟩ := of_next_some h
    exact hlt

/-- What `n` requests give out are the lanes to come in their order, and then nothing. -/
theorem fst_take (n : Nat) (c : LaneCursor) :
    (c.take n).1 = (c.rest.take n).map some ++ List.replicate (n - c.rest.length) none := by
  induction n generalizing c with
  | zero => simp [take]
  | succ n ih =>
    rcases h : c.next with ⟨_ | b, c'⟩
    · obtain ⟨-, rfl⟩ := of_next_none h
      rw [take, h]
      simp [ih, rest_of_next_none h, List.replicate_succ]
    · rw [take, h, rest_of_next_some h]
      simp [ih]

/-- After `n` requests the cursor is `n` lanes further, or at the end. -/
theorem snd_take (n : Nat) (hc : c.InVector) :
    (c.take n).2 = ⟨c.vector, min (c.index + n) c.vector.length⟩ := by
  induction n generalizing c with
  | zero =>
    rw [Nat.add_zero, Nat.min_eq_left hc]
    rfl
  | succ n ih =>
    rcases h : c.next with ⟨_ | b, c'⟩
    · have hnext := hc.next h
      obtain ⟨hle, rfl⟩ := of_next_none h
      rw [take, h]
      refine (ih hnext).trans ?_
      rw [Nat.min_eq_right (by omega), Nat.min_eq_right (by omega)]
    · have hnext := hc.next h
      obtain ⟨-, rfl⟩ := of_next_some h
      rw [take, h]
      refine (ih hnext).trans ?_
      rw [Nat.add_right_comm, Nat.add_assoc]

end LaneCursor

/-! ### Vectors -/

namespace LaneVector

lemma lane?_ofBits (w : Width) (words : List UInt64) (i : Nat) :
    (ofBits w words).lane? i = words[i]?.map w.truncate := List.getElem?_map

/-- The lanes of a vector make it again. -/
lemma ofBits_lanes (v : LaneVector) : ofBits v.width v.lanes = v := by
  obtain ⟨w, lanes, hfits⟩ := v
  have hmap : lanes.map w.truncate = lanes := by
    rw [List.map_congr_left hfits, List.map_id']
  simp only [ofBits, hmap]

/-- Words with the same low bits make the same vector. -/
lemma ofBits_map_congr {α : Type} {w : Width} {f g : α → UInt64}
    (h : ∀ x, w.truncate (f x) = w.truncate (g x)) (xs : List α) :
    ofBits w (xs.map f) = ofBits w (xs.map g) := by
  have hmap : (xs.map f).map w.truncate = (xs.map g).map w.truncate := by
    rw [List.map_map, List.map_map]
    exact List.map_congr_left fun x _ => h x
  simp only [ofBits, hmap]

/-- Native integers make the vector of their numbers as words. -/
lemma ofIntegers_eq (t : NativeType) (xs : List t.Carrier) :
    ofIntegers xs = ofBits t.width (xs.map t.toWord) := by
  rw [ofIntegers, t.width_carrier]
  refine ofBits_map_congr (fun x => ?_) xs
  rw [t.truncate_bits, t.truncate_toWord]

/-- Lanes may be stored as native integers. -/
lemma ofIntegers_map_ofWord (t : NativeType) (words : List UInt64) :
    ofIntegers (words.map t.ofWord) = ofBits t.width words := by
  have h : ∀ b, t.width.truncate (FixedInteger.bits (t.ofWord b)) = t.width.truncate (id b) :=
    fun b => by rw [t.bits_ofWord, Width.truncate_truncate, id]
  calc ofIntegers (words.map t.ofWord)
      = ofBits t.width (words.map fun b => FixedInteger.bits (t.ofWord b)) := by
        rw [ofIntegers, t.width_carrier, List.map_map]
        rfl
    _ = ofBits t.width (words.map id) := ofBits_map_congr h words
    _ = ofBits t.width words := by rw [List.map_id]

lemma map_lane?_range (v : LaneVector) (n : Nat) :
    (List.range (min n v.length)).map v.lane? = (v.lanes.take n).map some := by
  refine List.ext_getElem (by simp [length]) fun i hi hi' => ?_
  simp [lane?]

/-- **Walking over lanes.** A vector made from words has the low bits of each as its lanes. Asked
`n` times, a cursor gives out the first lanes in their order and then nothing; it is never behind the
end, and what it says is still to come is what it has not given out. The lanes that are collected
make the vector again. Native integers make the vector of their numbers, and any vector is made from
native integers of its width. -/
theorem lanes_walked (w : Width) (words : List UInt64) :
    ((ofBits w words).width = w ∧ (ofBits w words).length = words.length ∧
      ∀ i, ((ofBits w words).lane? i).map UInt64.toNat = words[i]?.map (·.toNat % 2 ^ w.bits)) ∧
    (∀ (v : LaneVector) (n : Nat),
      (v.cursor.take n).1 =
        (List.range (min n v.length)).map v.lane? ++ List.replicate (n - v.length) none ∧
      (v.cursor.take n).2.InVector ∧
      (v.cursor.take n).2.remaining = v.length - min n v.length) ∧
    (∀ v : LaneVector, ofBits v.width v.cursor.collect = v) ∧
    ∀ (t : NativeType) (xs : List t.Carrier), ofIntegers xs = ofBits t.width (xs.map t.toWord) ∧
      ofIntegers (words.map t.ofWord) = ofBits t.width words := by
  refine ⟨⟨rfl, List.length_map _, fun i => ?_⟩, fun v n => ⟨?_, ?_, ?_⟩, fun v => ?_,
    fun t xs => ⟨ofIntegers_eq t xs, ofIntegers_map_ofWord t words⟩⟩
  · rw [lane?_ofBits, Option.map_map]
    congr 1
    funext b
    exact w.toNat_truncate b
  · rw [map_lane?_range]
    exact LaneCursor.fst_take n v.cursor
  · rw [LaneCursor.snd_take n (LaneCursor.inVector_cursor v)]
    exact Nat.min_le_right _ _
  · rw [LaneCursor.snd_take n (LaneCursor.inVector_cursor v), LaneCursor.remaining]
    exact congrArg (v.length - min · v.length) (Nat.zero_add n)
  · rw [LaneCursor.collect_eq_rest]
    exact ofBits_lanes v

/-- One request more than there are lanes. -/
example : ((LaneVector.ofBits .w8 [0x1ff, 1]).cursor.take 3).1 = [some 255, some 1, none] := by
  decide

end LaneVector

end FixedInt
