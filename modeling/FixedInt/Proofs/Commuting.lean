import FixedInt.Proofs.Loading
import FixedInt.Proofs.Runs

/-!
Evaluations in any order. What an evaluation answers depends on the sizes of the regions alone, and
what it does to a byte depends on no other byte. So evaluations whose slots have no byte in common
can be made in any order, those that fail among them.
-/

namespace FixedInt

/-! ### Local changes of a memory -/

/-- A change that keeps all sizes and the bytes outside of a set, and for which a byte afterwards
depends only on the sizes and on that byte before. -/
structure Local (f : ByteMemory → ByteMemory) (covers : Nat → Nat → Prop) : Prop where
  sizes : ∀ m, (f m).sizes = m.sizes
  frame : ∀ m k i, ¬ covers k i → (f m).byte? k i = m.byte? k i
  congr : ∀ m n k i, m.sizes = n.sizes → m.byte? k i = n.byte? k i →
    (f m).byte? k i = (f n).byte? k i

/-- **Local changes of different bytes commute.** -/
theorem Local.comm {f g : ByteMemory → ByteMemory} {c d : Nat → Nat → Prop} (hf : Local f c)
    (hg : Local g d) (h : ∀ k i, c k i → ¬ d k i) (m : ByteMemory) : g (f m) = f (g m) := by
  apply ByteMemory.eq_of_byte?_eq
  · rw [hg.sizes, hf.sizes, hf.sizes, hg.sizes]
  · intro k i
    by_cases hd : d k i
    · have hc : ¬ c k i := fun hc => h k i hc hd
      rw [hf.frame (g m) k i hc]
      exact hg.congr _ _ k i (hf.sizes m) (hf.frame m k i hc)
    · rw [hg.frame (f m) k i hd]
      exact hf.congr _ _ k i (hg.sizes m).symm (hg.frame m k i hd).symm

/-! ### One evaluation -/

/-- An evaluation that a host asks for. -/
structure Evaluation where
  op : ArithOp
  width : Width
  left : Scalar
  right : Scalar
  dest : Address

namespace Evaluation

/-- The evaluation as a step of a session. -/
def step (x : Evaluation) : Step := .arith x.op x.width x.left x.right x.dest

/-- Index `i` of region `k` lies in the slots of the result. -/
def Covers (e : Evaluator) (x : Evaluation) (k i : Nat) : Prop :=
  (e.slots.get x.width).Covers x.dest k i

/-- No byte lies in the slots of both results. -/
def Apart (e : Evaluator) (x y : Evaluation) : Prop := ∀ k i, x.Covers e k i → ¬ y.Covers e k i

lemma Apart.symm {e : Evaluator} {x y : Evaluation} (h : Apart e x y) : Apart e y x :=
  fun k i hy hx => h k i hx hy

/-- The memory after the evaluation. -/
def effect (e : Evaluator) (x : Evaluation) (m : ByteMemory) : ByteMemory :=
  ((x.step.run e).run m).state

/-- The answer or failure, with what was recorded. -/
def report (o : Outcome ByteMemory Fault Answer) : Except Fault Answer × List Event :=
  (o.result, o.log)

section Local

variable {e : Evaluator} (hs : ∀ w, (e.slots.get w).Sound w) (x : Evaluation)

include hs

/-- In memories of the same sizes an evaluation answers the same. It changes nothing in both, or it
stores one result in both. -/
lemma congr_step {m n : ByteMemory} (h : m.sizes = n.sizes) :
    report ((x.step.run e).run m) = report ((x.step.run e).run n) ∧
      (x.effect e m = m ∧ x.effect e n = n ∨
        ∃ r, m.Fits x.dest (e.slots.get x.width).extent ∧
          x.effect e m = (e.slots.get x.width).afterStore x.dest r m ∧
          x.effect e n = (e.slots.get x.width).afterStore x.dest r n) := by
  unfold effect report
  rw [step, Step.run, Step.run_ofEval, Step.run_ofEval]
  by_cases hw : x.left.width = x.width ∧ x.right.width = x.width
  · have hc := x.op.compute_eq hw.1 hw.2
    obtain ⟨hrw, hm⟩ := e.run_arith_of_compute x.op x.dest m hw.1 hw.2 hc
    obtain ⟨-, hn⟩ := e.run_arith_of_compute x.op x.dest n hw.1 hw.2 hc
    have hrs := hrw.trans (hs x.width).width.symm
    rw [hm, hn]
    by_cases hf : m.Fits x.dest (e.slots.get x.width).extent
    · have hf' := (ByteMemory.fits_congr h).1 hf
      rw [ResultSlots.run_store_of_fits (hs x.width).enclosed hrs hf,
        ResultSlots.run_store_of_fits (hs x.width).enclosed hrs hf']
      exact ⟨rfl, Or.inr ⟨_, hf, rfl, rfl⟩⟩
    · have hf' := mt (ByteMemory.fits_congr h).2 hf
      rw [ResultSlots.run_store_of_not_fits hrs hf, ResultSlots.run_store_of_not_fits hrs hf',
        ByteMemory.refusal_congr h]
      exact ⟨rfl, Or.inl ⟨rfl, rfl⟩⟩
  · obtain ⟨u, hu⟩ := e.refuses_of_width_ne (σ := ByteMemory) x.op x.dest hw
    rw [hu m, hu n]
    exact ⟨rfl, Or.inl ⟨rfl, rfl⟩⟩

/-- **An evaluation changes its slots alone**, and it does so byte by byte. -/
theorem local_effect : Local (x.effect e) (x.Covers e) where
  sizes m := by
    obtain ⟨-, ⟨hm, -⟩ | ⟨r, -, hm, -⟩⟩ := congr_step hs x (rfl : m.sizes = m.sizes)
    · rw [hm]
    · rw [hm, ResultSlots.afterStore, ByteMemory.sizes_store, ByteMemory.sizes_store]
  frame m k i hki := by
    obtain ⟨-, ⟨hm, -⟩ | ⟨r, hf, hm, -⟩⟩ := congr_step hs x (rfl : m.sizes = m.sizes)
    · rw [hm]
    · rw [hm]
      exact (ResultSlots.stored_afterStore (hs x.width) hf).frame k i hki
  congr m n k i h hb := by
    obtain ⟨-, ⟨hm, hn⟩ | ⟨r, hf, hm, hn⟩⟩ := congr_step hs x h
    · rw [hm, hn, hb]
    · rw [hm, hn, ResultSlots.byte?_afterStore (hs x.width).enclosed hf,
        ResultSlots.byte?_afterStore (hs x.width).enclosed ((ByteMemory.fits_congr h).1 hf), hb]

/-! ### Many evaluations -/

/-- In a run every evaluation answers as it does alone. -/
theorem reports_eq (l : List Evaluation) {m n : ByteMemory} (h : m.sizes = n.sizes) :
    (Step.runAll e (l.map step) m).map report =
      l.map fun x => report ((x.step.run e).run n) := by
  induction l generalizing m with
  | nil => rfl
  | cons x l ih =>
    have hrest := ih (((local_effect hs x).sizes m).trans h)
    rw [List.map_cons, Step.runAll, Action.runAll_cons, List.map_cons, List.map_cons,
      (congr_step hs x h).1]
    exact congrArg _ hrest

end Local

lemma after_map_step (e : Evaluator) (l : List Evaluation) (m : ByteMemory) :
    Step.after e (l.map step) m = l.foldl (fun m x => x.effect e m) m :=
  List.foldl_map

/-- **Independent evaluations commute**, with every evaluator made from settings. If no byte lies in
the slots of two of them, evaluations can be made in any order: each answers or fails as it does
alone, so that it has the same outcome in every order, and the memory is the same in the end. -/
theorem run_perm {σ : Type} {e : Evaluator} {s : Settings} {host : HostTarget} {m₀ : σ}
    (he : ((Setup.ofSettings s host).run m₀).result = .ok e) {l l' : List Evaluation}
    (hd : l.Pairwise (Apart e)) (hp : l'.Perm l) (m : ByteMemory) :
    (Step.runAll e (l'.map step) m).map report =
        l'.map (fun x => report ((x.step.run e).run m)) ∧
      (l'.zip ((Step.runAll e (l'.map step) m).map report)).Perm
        (l.zip ((Step.runAll e (l.map step) m).map report)) ∧
      Step.after e (l'.map step) m = Step.after e (l.map step) m := by
  have hs := Evaluator.sound_of_ofSettings he
  have hzip : ∀ l : List Evaluation, l.zip ((Step.runAll e (l.map step) m).map report) =
      l.map fun x => (x, report ((x.step.run e).run m)) := by
    intro l
    rw [reports_eq hs l rfl, ← List.map_prod_left_eq_zip]
  refine ⟨reports_eq hs l' rfl, ?_, ?_⟩
  · rw [hzip, hzip]
    exact hp.map _
  · rw [after_map_step, after_map_step]
    refine (hp.symm.foldl_eq' (fun x hx y hy m => ?_) m).symm
    by_cases hxy : x = y
    · rw [hxy]
    · have : Std.Symm (Apart e) := ⟨fun _ _ => Apart.symm⟩
      exact (local_effect hs x).comm (local_effect hs y) (hd.forall hx hy hxy) m

/-- Flags of one byte, with room between value and flag at 8 bits. -/
def roomy : Settings := { flagStorage := .oneByte, flagOffsets := .ofList [("8", 4)] }

/-- The evaluator of these settings. -/
def roomyEvaluator : Evaluator :=
  ⟨.ofFn fun w => .flagAt .oneByte w (if w = .w8 then 4 else w.bytes), .ignore⟩

/-- Two sums that lie in the padding of each other, and one for which there is no region. -/
def woven : List Evaluation :=
  [⟨.sadd, .w8, .ofBits .w8 100, .ofBits .w8 100, ⟨0, 0⟩⟩,
    ⟨.uadd, .w8, .ofBits .w8 3, .ofBits .w8 4, ⟨0, 1⟩⟩,
    ⟨.uadd, .w16, .ofBits .w16 1, .ofBits .w16 2, ⟨1, 0⟩⟩]

theorem run_perm_woven :
    ((Setup.ofSettings roomy .known).run ()).result = .ok roomyEvaluator ∧
      woven.Pairwise (Apart roomyEvaluator) ∧
      Step.after roomyEvaluator (woven.reverse.map step) Evaluator.sixteenZeros =
        Step.after roomyEvaluator (woven.map step) Evaluator.sixteenZeros ∧
      (Step.runAll roomyEvaluator (woven.reverse.map step) Evaluator.sixteenZeros).map
          (fun o => o.result) =
        [.error (.eval (.memory (.unknownRegion 1))), .ok (.address ⟨0, 1⟩),
          .ok (.address ⟨0, 0⟩)] := by
  have hkeys : roomy.KeysValid := by decide
  have hmade : ((Setup.ofSettings roomy .known).run ()).result = .ok roomyEvaluator := by
    rw [Setup.ofSettings, Evaluator.ofSettings_of_valid hkeys]
    rfl
  -- values and flags lie at 0 and 4, and at 1 and 5; the third one lies in another region
  have hapart : woven.Pairwise (Apart roomyEvaluator) := by
    have hsame : ∀ k i, ¬ (ResultSlots.Covers (.flagAt .oneByte .w8 4) ⟨0, 0⟩ k i ∧
        ResultSlots.Covers (.flagAt .oneByte .w8 4) ⟨0, 1⟩ k i) := by
      rintro k i ⟨⟨-, hi⟩, -, hi'⟩
      change 0 ≤ i ∧ i < 0 + 1 ∨ 0 + 4 ≤ i ∧ i < 0 + 4 + 1 at hi
      change 1 ≤ i ∧ i < 1 + 1 ∨ 1 + 4 ≤ i ∧ i < 1 + 4 + 1 at hi'
      omega
    refine .cons ?_ (.cons ?_ (List.pairwise_singleton _ _))
    · intro y hy k i hx hy'
      rcases List.mem_cons.1 hy with rfl | hy
      · exact hsame k i ⟨hx, hy'⟩
      · cases List.mem_singleton.1 hy
        exact absurd (hx.1.symm.trans hy'.1) (by decide)
    · intro y hy k i hx hy'
      cases List.mem_singleton.1 hy
      exact absurd (hx.1.symm.trans hy'.1) (by decide)
  obtain ⟨hreports, -, hafter⟩ := run_perm hmade hapart woven.reverse_perm Evaluator.sixteenZeros
  refine ⟨hmade, hapart, hafter, ?_⟩
  have hresults := congrArg (List.map Prod.fst) hreports
  rw [List.map_map] at hresults
  exact hresults

end Evaluation

end FixedInt
