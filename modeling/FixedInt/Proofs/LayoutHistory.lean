import FixedInt.Proofs.Layout

/-!
Requests to a table of layouts, in any number and order. No answer tells that layouts are kept: each
request is answered as by a fresh table in which only the last pin of the width was made. A layout
is recorded exactly if it is the first one given for its width since the flag was last pinned.
-/

namespace FixedInt

namespace LayoutTable

/-! ### Widths asked for one after another -/

section Widths

variable (c : Nat → Except LayoutError AggregateLayout)

/-- The widths up to the first one that has no layout. -/
def reached (ws : List Nat) : List Nat := ws.takeWhile fun w => (c w).isOk

/-- The records of the layouts that are reached, except those that are held already. -/
def records (held : Nat → Bool) (ws : List Nat) : List Event :=
  ((reached c ws).filter fun w => !held w).filterMap fun w => (c w).toOption.map (.aggregate w)

variable {c} {ws vs : List Nat}

lemma reached_append_of_eq (h : reached c ws = ws) : reached c (ws ++ vs) = ws ++ reached c vs := by
  unfold reached at h ⊢
  rw [List.takeWhile_append, if_pos (congrArg List.length h)]

lemma reached_append_of_ne (h : reached c ws ≠ ws) : reached c (ws ++ vs) = reached c ws := by
  unfold reached at h ⊢
  rw [List.takeWhile_append, if_neg]
  intro hlen
  exact h ((List.takeWhile_prefix _).eq_of_length hlen)

lemma reached_eq_append (h : reached c ws = ws ++ vs) : reached c ws = ws := by
  refine (List.takeWhile_prefix _).eq_of_length_le ?_
  change ws.length ≤ (reached c ws).length
  rw [h, List.length_append]
  omega

lemma reached_of_ok {w : Nat} {p : AggregateLayout} (h : c w = .ok p) : reached c [w] = [w] := by
  simp [reached, h, Except.isOk, Except.toBool]

lemma reached_of_error {w : Nat} {e : LayoutError} (h : c w = .error e) : reached c [w] = [] := by
  simp [reached, h, Except.isOk, Except.toBool]

lemma mem_of_mem_reached {w : Nat} (h : w ∈ reached c ws) : w ∈ ws :=
  (List.takeWhile_prefix _).subset h

/-- What is held of other widths plays no part. -/
lemma records_congr {held held' : Nat → Bool} (h : ∀ w ∈ ws, held' w = held w) :
    records c held' ws = records c held ws := by
  unfold records
  congr 1
  refine List.filter_congr fun w hw => ?_
  rw [h w (mem_of_mem_reached hw)]

end Widths

lemma compute_congr {t t' : LayoutTable} {w : Nat} (ht : t.target = t'.target)
    (hf : t.flagStorage = t'.flagStorage) (hp : t.pinned.lookup w = t'.pinned.lookup w) :
    t.compute w = t'.compute w := by
  rw [compute, compute, ht, hf, hp]

/-- The table is `t₀`, except that it keeps layouts: those of the widths that are held. -/
structure Keeps (t₀ : LayoutTable) (held : Nat → Bool) (t : LayoutTable) : Prop where
  pins : t = { t₀ with kept := t.kept }
  kept : ∀ w, t.kept.lookup w = if held w then (t₀.compute w).toOption else none
  computed : ∀ w, held w = true → (t₀.compute w).isOk = true

section Keeps

variable {t₀ t : LayoutTable} {held : Nat → Bool}

lemma Keeps.compute_eq (h : t₀.Keeps held t) : t.compute = t₀.compute := by
  rw [h.pins]
  rfl

lemma Keeps.coherent (h : t₀.Keeps held t) : t.Coherent := by
  intro w p hp
  rw [h.kept] at hp
  rw [h.compute_eq]
  split at hp
  · cases hc : t₀.compute w with
    | ok q => simp_all [Except.toOption]
    | error e => simp_all [Except.toOption]
  · cases hp

/-- A layout that is kept is held from then on. -/
lemma Keeps.keep (h : t₀.Keeps held t) {w : Nat} {p : AggregateLayout}
    (hp : t₀.compute w = .ok p) :
    t₀.Keeps (fun v => held v || [w].contains v) (t.keep w p) where
  pins := by
    rw [LayoutTable.keep, h.pins]
  kept v := by
    by_cases hv : v = w
    · subst hv
      simp [LayoutTable.keep, hp, Except.toOption]
    · rw [LayoutTable.keep, lookup_cons_of_ne hv, h.kept]
      simp [hv]
  computed v hv := by
    by_cases hvw : v = w
    · rw [hvw, hp]
      rfl
    · exact h.computed v (by simpa [hvw] using hv)

end Keeps

variable {α β : Type} {t₀ : LayoutTable}

/-- The action asks for the layouts of some widths, one after another up to the first failure. It
records those that are not held, and holds all that it reached. -/
def Visits (t₀ : LayoutTable) (ws : List Nat) (x : Action LayoutTable LayoutError α) : Prop :=
  ∀ held t, t₀.Keeps held t →
    (x.run t).log = records t₀.compute held ws ∧
      t₀.Keeps (fun w => held w || (reached t₀.compute ws).contains w) (x.run t).state ∧
      ((x.run t).result.isOk = true ↔ reached t₀.compute ws = ws)

lemma visits_pure (a : α) : t₀.Visits [] (pure a) := by
  intro held t h
  refine ⟨rfl, ?_, by simp [reached]; rfl⟩
  simpa [reached] using h

/-- One width after others that are different. -/
theorem Visits.bind {ws vs : List Nat} {x : Action LayoutTable LayoutError α}
    {f : α → Action LayoutTable LayoutError β} (hx : t₀.Visits ws x) (hf : ∀ a, t₀.Visits vs (f a))
    (hd : ∀ w ∈ vs, w ∉ ws) : t₀.Visits (ws ++ vs) (x >>= f) := by
  intro held t h
  obtain ⟨hlog, hkeeps, hok⟩ := hx held t h
  cases hr : (x.run t).result with
  | ok a =>
    have hall : reached t₀.compute ws = ws := hok.1 (by rw [hr]; rfl)
    obtain ⟨hlog', hkeeps', hok'⟩ := hf a _ _ hkeeps
    -- the widths visited first are none of those visited now
    have hnew : records t₀.compute (fun w => held w || (reached t₀.compute ws).contains w) vs =
        records t₀.compute held vs := records_congr fun w hw => by simp [hall, hd w hw]
    rw [Action.run_bind_of_ok f hr, reached_append_of_eq hall]
    refine ⟨?_, ?_, ?_⟩
    · change (x.run t).log ++ ((f a).run (x.run t).state).log = _
      rw [hlog, hlog', hnew]
      unfold records
      rw [reached_append_of_eq hall, hall, List.filter_append, List.filterMap_append]
    · simpa [hall, Bool.or_assoc] using hkeeps'
    · simpa using hok'
  | error e =>
    have hstop : reached t₀.compute ws ≠ ws := by
      intro hall
      have := hok.2 hall
      rw [hr] at this
      cases this
    rw [Action.run_bind_of_error f hr, reached_append_of_ne hstop]
    refine ⟨?_, hkeeps, ?_⟩
    · rw [hlog, records, records, reached_append_of_ne hstop]
    · constructor
      · intro h
        cases h
      · intro h
        exact absurd (reached_eq_append h) hstop

/-- One request answers what is held or else computes, and holds what it gave. -/
theorem visits_layout (w : Nat) : t₀.Visits [w] (layout w) := by
  intro held t h
  have hkept := h.kept w
  cases hp : t₀.compute w with
  | ok p =>
    rw [records, reached_of_ok hp]
    cases hh : held w with
    | true =>
      have hrun : (layout w).run t = ⟨.ok p, t, []⟩ := by
        rw [layout_run, hkept, hh, hp]
        rfl
      have hsame : (fun v => held v || [w].contains v) = held := by
        funext v
        by_cases hv : v = w <;> simp [hv, hh]
      rw [hrun, hsame]
      exact ⟨by simp [hh], h, iff_of_true rfl rfl⟩
    | false =>
      have hrun : (layout w).run t = ⟨.ok p, t.keep w p, [.aggregate w p]⟩ := by
        rw [layout_run, hkept, hh, h.compute_eq, hp]
        rfl
      rw [hrun]
      exact ⟨by simp [hh, hp, Except.toOption], h.keep hp, iff_of_true rfl rfl⟩
  | error e =>
    have hh : held w = false := by
      rw [Bool.eq_false_iff]
      intro hh
      have := h.computed w hh
      rw [hp] at this
      cases this
    have hrun : (layout w).run t = ⟨.error e, t, []⟩ := by
      rw [layout_run, hkept, hh, h.compute_eq, hp]
      rfl
    rw [hrun, records, reached_of_error hp]
    exact ⟨rfl, by simpa using h, by simp [Except.isOk, Except.toBool]⟩

theorem visits_allLayouts : t₀.Visits (Width.all.map Width.bits) allLayouts :=
  (visits_layout 8).bind (fun _ => (visits_layout 16).bind (fun _ => (visits_layout 32).bind
    (fun _ => (visits_layout 64).bind (fun _ => visits_pure _)
      (by simp)) (by simp [Width.bits])) (by simp [Width.bits])) (by simp [Width.bits])

end LayoutTable

/-! ### Histories -/

namespace LayoutRequest

/-- The widths whose layouts are asked for, in order. -/
def widths : LayoutRequest → List Nat
  | pin .. => []
  | layout w => [w]
  | allLayouts => Width.all.map Width.bits

def pin? : LayoutRequest → Option (Nat × Nat)
  | pin w offset => some (w, offset)
  | _ => none

section History

/- A history is a list of requests, the newest one first. -/
variable (target : Target) (flag : FlagStorage) (history : List LayoutRequest)

/-- The offset of the last pin of a width. -/
def lastPin (w : Nat) : Option Nat := (history.filterMap pin?).lookup w

/-- The table in which nothing was done but the last pin of the width. -/
def freshTable (w : Nat) : LayoutTable :=
  match lastPin history w with
  | none => .new target flag
  | some offset => (LayoutTable.new target flag).pin w offset

/-- What the fresh table answers to a request for the width. -/
def freshAnswer (w : Nat) : Except LayoutError AggregateLayout :=
  ((LayoutTable.layout w).run (freshTable target flag history w)).result

/-- Since its last pin the width was asked for with success, alone or among all widths. -/
def served (w : Nat) : List LayoutRequest → Bool
  | [] => false
  | pin v _ :: history => v != w && served w history
  | r :: history =>
    served w history || (LayoutTable.reached (freshAnswer target flag history) r.widths).contains w

/-- The table after the requests. -/
def after : LayoutTable := Action.stateAfter run history.reverse (.new target flag)

/-- The table with the pins that were made, which keeps nothing. -/
def pinsOnly : LayoutTable := ⟨target, flag, history.filterMap pin?, []⟩

end History

section History

variable {target : Target} {flag : FlagStorage} {history : List LayoutRequest}

/-- Pins of other widths play no part. -/
lemma freshAnswer_eq :
    freshAnswer target flag history = (pinsOnly target flag history).compute := by
  funext w
  have hfresh : (freshTable target flag history w).compute w =
        (pinsOnly target flag history).compute w ∧
      (freshTable target flag history w).kept.lookup w = none := by
    unfold freshTable
    cases hp : lastPin history w with
    | none => exact ⟨LayoutTable.compute_congr rfl rfl hp.symm, rfl⟩
    | some offset =>
      refine ⟨LayoutTable.compute_congr rfl rfl ?_, rfl⟩
      exact List.lookup_cons_self.trans hp.symm
  rw [freshAnswer, LayoutTable.layout_run, hfresh.1, hfresh.2]
  cases (pinsOnly target flag history).compute w <;> rfl

lemma visits_run {r : LayoutRequest} (h : r.pin? = none) (t₀ : LayoutTable) :
    t₀.Visits r.widths r.run := by
  cases r with
  | pin w offset => cases h
  | layout w =>
    exact (LayoutTable.visits_layout w).bind (fun _ => LayoutTable.visits_pure _) (by simp)
  | allLayouts =>
    exact LayoutTable.visits_allLayouts.bind (fun _ => LayoutTable.visits_pure _) (by simp)

lemma after_cons (r : LayoutRequest) (history : List LayoutRequest) :
    after target flag (r :: history) = (r.run.run (after target flag history)).state := by
  rw [after, List.reverse_cons, Action.stateAfter_append]
  rfl

/-- A pin drops the layout of its width. -/
lemma keeps_pin {t : LayoutTable} {w offset : Nat}
    (h : (pinsOnly target flag history).Keeps (served target flag · history) t) :
    (pinsOnly target flag (pin w offset :: history)).Keeps
      (served target flag · (pin w offset :: history)) (t.pin w offset) where
  pins := by
    rw [LayoutTable.pin, h.pins]
    rfl
  kept v := by
    rw [LayoutTable.pin, LayoutTable.lookup_filter_ne]
    by_cases hv : v = w
    · simp [served, hv]
    · have hcompute := LayoutTable.compute_pin_of_ne (t := pinsOnly target flag history) hv offset
      have hserved : served target flag v (pin w offset :: history) =
          served target flag v history := by simp [served, Ne.symm hv]
      rw [if_neg hv, h.kept, ← hcompute, hserved]
      rfl
  computed v hv := by
    simp only [served, Bool.and_eq_true, bne_iff_ne] at hv
    have hcompute := LayoutTable.compute_pin_of_ne (t := pinsOnly target flag history) hv.1.symm
      offset
    have := h.computed v hv.2
    rwa [← hcompute] at this

/-- **What is kept after any requests.** -/
theorem keeps_after (history : List LayoutRequest) :
    (pinsOnly target flag history).Keeps (served target flag · history)
      (after target flag history) := by
  induction history with
  | nil => exact ⟨rfl, fun w => rfl, fun w h => by cases h⟩
  | cons r history ih =>
    rw [after_cons]
    cases hr : r.pin? with
    | some p =>
      cases r with
      | pin w offset => exact keeps_pin ih
      | layout w => cases hr
      | allLayouts => cases hr
    | none =>
      have hpins : pinsOnly target flag (r :: history) = pinsOnly target flag history := by
        rw [pinsOnly, List.filterMap_cons_none hr, pinsOnly]
      have hserved : (served target flag · (r :: history)) = fun w =>
          served target flag w history ||
            (LayoutTable.reached (pinsOnly target flag history).compute r.widths).contains w := by
        rw [← freshAnswer_eq]
        cases r with
        | pin w offset => cases hr
        | layout w => rfl
        | allLayouts => rfl
      rw [hpins, hserved]
      exact (visits_run hr _ _ _ ih).2.1

/-! ### Runs -/

lemma getElem?_runAll_new (history rest : List LayoutRequest) (r : LayoutRequest) :
    (runAll (history.reverse ++ r :: rest) (.new target flag))[history.length]? =
      some (r.run.run (after target flag history)) := by
  rw [runAll, ← List.length_reverse, Action.getElem?_runAll,
    List.getElem?_append_right (Nat.le_refl _), Nat.sub_self, List.take_left]
  rfl

lemma result_run_layout (w : Nat) (t : LayoutTable) :
    ((layout w).run.run t).result = ((LayoutTable.layout w).run t).result.map .layout :=
  congrArg Outcome.result (Action.run_bind_pure _ _ _)

lemma result_run_allLayouts (t : LayoutTable) :
    (allLayouts.run.run t).result = (LayoutTable.allLayouts.run t).result.map .layouts :=
  congrArg Outcome.result (Action.run_bind_pure _ _ _)

/-- A layout that is asked for is the one that the pins so far give. -/
lemma result_layout_after (w : Nat) :
    ((LayoutTable.layout w).run (after target flag history)).result =
      (pinsOnly target flag history).compute w :=
  (LayoutTable.answers_layout _ w _
    ⟨(keeps_after history).coherent, (keeps_after history).compute_eq⟩).1

lemma result_allLayouts_after :
    (LayoutTable.allLayouts.run (after target flag history)).result =
      PerWidth.ofFnM fun w => (pinsOnly target flag history).compute w.bits :=
  (LayoutTable.answers_allLayouts _ _
    ⟨(keeps_after history).coherent, (keeps_after history).compute_eq⟩).1

/-- **Layouts are kept unnoticed.** After any history of requests, failed ones included, a request
is answered as by fresh tables in which only the last pin of a width was made: with the layout of
its width, or with all four layouts or the failure of the smallest width that has none. It records
the layouts that it reaches, in order, except those that were given since the last pin. -/
theorem answers_as_fresh (target : Target) (flag : FlagStorage) (history : List LayoutRequest)
    (r : LayoutRequest) (rest : List LayoutRequest) :
    ∃ o, (runAll (history.reverse ++ r :: rest) (.new target flag))[history.length]? = some o ∧
      (match r with
        | pin _ _ => o.result = .ok .done
        | layout w => o.result = (freshAnswer target flag history w).map .layout
        | allLayouts =>
          (∀ ps, o.result = .ok (.layouts ps) ↔
            ∀ w : Width, freshAnswer target flag history w.bits = .ok (ps.get w)) ∧
          ∀ e, o.result = .error e ↔
            ∃ w : Width, freshAnswer target flag history w.bits = .error e ∧
              ∀ v : Width, v.bits < w.bits →
                ∃ p, freshAnswer target flag history v.bits = .ok p) ∧
      o.log = LayoutTable.records (freshAnswer target flag history)
        (served target flag · history) r.widths := by
  have hkeeps : (pinsOnly target flag history).Keeps (served target flag · history)
      (after target flag history) := keeps_after history
  have hstate : (after target flag history).Coherent ∧
      (after target flag history).compute = freshAnswer target flag history :=
    ⟨hkeeps.coherent, hkeeps.compute_eq.trans freshAnswer_eq.symm⟩
  refine ⟨_, getElem?_runAll_new history rest r, ?_, ?_⟩
  · cases r with
    | pin w offset => rfl
    | layout w =>
      simp only [result_run_layout, (LayoutTable.answers_layout _ w _ hstate).1]
    | allLayouts =>
      simp only [result_run_allLayouts, (LayoutTable.answers_allLayouts _ _ hstate).1]
      refine ⟨fun ps => ?_, fun e => ?_⟩
      · rw [← PerWidth.ofFnM_eq_ok]
        exact Except.map_eq_ok fun _ _ => LayoutAnswer.layouts.inj
      · rw [← PerWidth.ofFnM_eq_error]
        exact Except.map_eq_error
  · cases hr : r.pin? with
    | some p =>
      cases r with
      | pin w offset => rfl
      | layout w => cases hr
      | allLayouts => cases hr
    | none =>
      rw [freshAnswer_eq]
      exact (visits_run hr _ _ _ hkeeps).1

end History

end LayoutRequest

end FixedInt
