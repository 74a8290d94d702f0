import Mathlib.Algebra.Order.Ring.Nat
import Mathlib.Data.List.Basic
import Mathlib.Data.Option.Basic

/-!
# Runs of a partial step function

A machine is a partial step function `step : σ → ε → Option σ`: the event `e` is possible at the
state `s` when `step s e` is defined. A run performs a list of events in order and is undefined as
soon as one of them is not possible.

## Main definitions

* `run step s es`: the state after the events `es`
* `AllStates step P s es`: every state on the way satisfies `P`
* `AllSteps step Q s es`: every event on the way is performed at a state where `Q` holds of both
* `recorded step note`: the machine with a record of its run

## Main results

* `run_invariant`, `run_invariant_of_mem`: what every step keeps, every run keeps
* `exists_step_of_run`: what a run brings about is brought about by one of its steps
* `allStates_of_allSteps`, `allSteps_of_allStates`: what the steps that meet `Q` keep, a run of such
  steps keeps; and back
* `allStates_iff_of_invariant`, `allStates_iff_allSteps`: if a step keeps `P` exactly when it meets
  `Q`, then `P` holds all the way exactly when every step meets `Q`
* `run_simulation`, `run_abstraction`: forward simulation, from steps to runs
* `exists_run_recorded`: a record does not restrict the runs
* `run_potential`, `run_meter`: what the events of a run cost is paid from the rank of its first
  state and from what comes in
* `exists_run_of_rank`: a machine that can lower its rank until it is done can be done
-/

namespace Transition

variable {σ τ ε δ : Type*} {step : σ → ε → Option σ}

/-- The state reached by performing the events in order. -/
def run (step : σ → ε → Option σ) : σ → List ε → Option σ
  | s, [] => some s
  | s, e :: es => (step s e).bind fun t => run step t es

@[simp] theorem run_nil (s : σ) : run step s [] = some s := rfl

theorem run_cons (s : σ) (e : ε) (es : List ε) :
    run step s (e :: es) = (step s e).bind fun t => run step t es := rfl

theorem run_cons_eq_some {s u : σ} {e : ε} {es : List ε} :
    run step s (e :: es) = some u ↔ ∃ t, step s e = some t ∧ run step t es = some u := by
  rw [run_cons, Option.bind_eq_some_iff]

theorem run_append (s : σ) (es fs : List ε) :
    run step s (es ++ fs) = (run step s es).bind fun t => run step t fs := by
  induction es generalizing s with
  | nil => rfl
  | cons e es ih =>
    rw [List.cons_append, run_cons, run_cons, Option.bind_assoc]
    congr 1
    funext t
    exact ih t

theorem run_append_eq_some {s u : σ} {es fs : List ε} :
    run step s (es ++ fs) = some u ↔ ∃ t, run step s es = some t ∧ run step t fs = some u := by
  rw [run_append, Option.bind_eq_some_iff]

theorem run_singleton (s : σ) (e : ε) : run step s [e] = step s e := by
  rw [run_cons]
  cases step s e <;> rfl

theorem run_snoc_eq_some {s u : σ} {es : List ε} {e : ε} :
    run step s (es ++ [e]) = some u ↔ ∃ t, run step s es = some t ∧ step t e = some u := by
  simp only [run_append_eq_some, run_singleton]

/-- What holds at the start and is kept by every step holds after every run. -/
theorem run_invariant {P : σ → Prop} (hstep : ∀ s e t, P s → step s e = some t → P t)
    {s t : σ} {es : List ε} (hs : P s) (hr : run step s es = some t) : P t := by
  induction es generalizing s with
  | nil =>
    cases hr
    exact hs
  | cons e es ih =>
    obtain ⟨u, hu, hr⟩ := run_cons_eq_some.mp hr
    exact ih (hstep s e u hs hu) hr

/-- What holds at the start and is kept by the steps of the events of a run holds after it. -/
theorem run_invariant_of_mem {P : σ → Prop} {s t : σ} {es : List ε}
    (hstep : ∀ s e t, P s → e ∈ es → step s e = some t → P t) (hs : P s)
    (hr : run step s es = some t) : P t := by
  induction es generalizing s with
  | nil =>
    cases hr
    exact hs
  | cons e es ih =>
    obtain ⟨u, hu, hr⟩ := run_cons_eq_some.mp hr
    exact ih (fun s f t hs hf => hstep s f t hs (List.mem_cons_of_mem e hf))
      (hstep s e u hs (List.mem_cons_self ..) hu) hr

/-- A property that a run brings about is brought about by one of its steps. -/
theorem exists_step_of_run {P : σ → Prop} {s t : σ} {es : List ε} (hs : ¬ P s)
    (hr : run step s es = some t) (ht : P t) :
    ∃ es₁ e es₂ u v, es = es₁ ++ e :: es₂ ∧ run step s es₁ = some u ∧ ¬ P u ∧
      step u e = some v ∧ P v ∧ run step v es₂ = some t := by
  induction es generalizing s with
  | nil =>
    cases hr
    exact absurd ht hs
  | cons e es ih =>
    obtain ⟨u, hu, hr⟩ := run_cons_eq_some.mp hr
    by_cases hP : P u
    · exact ⟨[], e, es, s, u, rfl, rfl, hs, hu, hP, hr⟩
    · obtain ⟨es₁, f, es₂, v, w, rfl, hv, hnot, hstep, hw, hr⟩ := ih hP hr
      exact ⟨e :: es₁, f, es₂, v, w, rfl, run_cons_eq_some.mpr ⟨u, hu, hv⟩, hnot, hstep, hw, hr⟩

/-! ## Properties along a run -/

/-- Every state of the run satisfies `P`, the first and the last included. -/
def AllStates (step : σ → ε → Option σ) (P : σ → Prop) : σ → List ε → Prop
  | s, [] => P s
  | s, e :: es => P s ∧ ∀ t, step s e = some t → AllStates step P t es

/-- Every event of the run is performed at a state where `Q` holds of state and event. -/
def AllSteps (step : σ → ε → Option σ) (Q : σ → ε → Prop) : σ → List ε → Prop
  | _, [] => True
  | s, e :: es => Q s e ∧ ∀ t, step s e = some t → AllSteps step Q t es

instance decidableAllSteps {Q : σ → ε → Prop} [∀ s e, Decidable (Q s e)] :
    ∀ (s : σ) (es : List ε), Decidable (AllSteps step Q s es)
  | _, [] => isTrue trivial
  | s, e :: es =>
    match h : step s e with
    | none => decidable_of_iff (Q s e) (by simp [AllSteps, h])
    | some t =>
      have : Decidable (AllSteps step Q t es) := decidableAllSteps t es
      decidable_of_iff (Q s e ∧ AllSteps step Q t es) (by simp [AllSteps, h])

theorem AllStates.head {P : σ → Prop} {s : σ} {es : List ε} (h : AllStates step P s es) : P s := by
  cases es with
  | nil => exact h
  | cons e es => exact h.1

theorem AllStates.last {P : σ → Prop} {s t : σ} {es : List ε} (h : AllStates step P s es)
    (hr : run step s es = some t) : P t := by
  induction es generalizing s with
  | nil =>
    cases hr
    exact h
  | cons e es ih =>
    obtain ⟨u, hu, hr⟩ := run_cons_eq_some.mp hr
    exact ih (h.2 u hu) hr

theorem AllStates.imp {P P' : σ → Prop} (himp : ∀ t, P t → P' t) {s : σ} {es : List ε}
    (h : AllStates step P s es) : AllStates step P' s es := by
  induction es generalizing s with
  | nil => exact himp s h
  | cons e es ih => exact ⟨himp s h.1, fun t ht => ih (h.2 t ht)⟩

/-- What holds of every state and event holds along every run. -/
theorem allSteps_of_forall {Q : σ → ε → Prop} (h : ∀ s e, Q s e) (s : σ) (es : List ε) :
    AllSteps step Q s es := by
  induction es generalizing s with
  | nil => trivial
  | cons e es ih => exact ⟨h s e, fun t _ => ih t⟩

theorem AllSteps.imp {Q Q' : σ → ε → Prop} (himp : ∀ s e, Q s e → Q' s e) {s : σ} {es : List ε}
    (h : AllSteps step Q s es) : AllSteps step Q' s es := by
  induction es generalizing s with
  | nil => trivial
  | cons e es ih => exact ⟨himp s e h.1, fun t ht => ih (h.2 t ht)⟩

/-- A run of steps that meet `Q` can be cut at any step. -/
theorem AllSteps.cut {Q : σ → ε → Prop} {s t : σ} {es₁ es₂ : List ε} {e : ε}
    (h : AllSteps step Q s (es₁ ++ e :: es₂)) (hr : run step s es₁ = some t) :
    AllSteps step Q s es₁ ∧ Q t e := by
  induction es₁ generalizing s with
  | nil =>
    cases hr
    exact ⟨trivial, h.1⟩
  | cons f es₁ ih =>
    obtain ⟨u, hu, hr⟩ := run_cons_eq_some.mp hr
    obtain ⟨hbefore, hq⟩ := ih (h.2 u hu) hr
    refine ⟨⟨h.1, fun v hv => ?_⟩, hq⟩
    obtain rfl : v = u := Option.some.inj (hv.symm.trans hu)
    exact hbefore

/-- Every step of a run meets `Q` if `Q` holds wherever the run can be cut. -/
theorem allSteps_of_cuts {Q : σ → ε → Prop} {s : σ} {es : List ε}
    (h : ∀ es₁ e es₂ t, es = es₁ ++ e :: es₂ → run step s es₁ = some t → Q t e) :
    AllSteps step Q s es := by
  induction es generalizing s with
  | nil => trivial
  | cons e es ih =>
    refine ⟨h [] e es s rfl rfl, fun t ht => ih fun es₁ f es₂ u heq hu => ?_⟩
    exact h (e :: es₁) f es₂ u (by rw [heq]; rfl) (run_cons_eq_some.mpr ⟨t, ht, hu⟩)

/-- Every step of a run meets `Q` if `Q` holds of each with the run before it and the run after. -/
theorem allSteps_of_run {Q : σ → ε → Prop} {s t : σ} {es : List ε} (hr : run step s es = some t)
    (h : ∀ es₁ e es₂ u v, run step s es₁ = some u → step u e = some v →
      run step v es₂ = some t → Q u e) : AllSteps step Q s es := by
  refine allSteps_of_cuts fun es₁ e es₂ u heq hu => ?_
  obtain ⟨u', hu', hrest⟩ := run_append_eq_some.mp (heq ▸ hr)
  obtain rfl : u' = u := Option.some.inj (hu'.symm.trans hu)
  obtain ⟨v, hv, hafter⟩ := run_cons_eq_some.mp hrest
  exact h es₁ e es₂ u' v hu hv hafter

/-- What the steps that meet `Q` keep holds at every state of a run of such steps. -/
theorem allStates_of_allSteps {P : σ → Prop} {Q : σ → ε → Prop}
    (hstep : ∀ s e t, P s → Q s e → step s e = some t → P t)
    {s : σ} {es : List ε} (hs : P s) (hq : AllSteps step Q s es) : AllStates step P s es := by
  induction es generalizing s with
  | nil => exact hs
  | cons e es ih => exact ⟨hs, fun t ht => ih (hstep s e t hs hq.1 ht) (hq.2 t ht)⟩

/-- If, for the events of a run, a step that meets `Q` keeps `J`, and a step from `J` into `P` meets
`Q`, then a run through `P` is one of steps that meet `Q`. -/
theorem allSteps_of_allStates {J P : σ → Prop} {Q : σ → ε → Prop} {s t : σ} {es : List ε}
    (hkeep : ∀ s e t, e ∈ es → J s → Q s e → step s e = some t → J t)
    (hmeets : ∀ s e t, e ∈ es → J s → step s e = some t → P t → Q s e)
    (hs : J s) (hr : run step s es = some t) (h : AllStates step P s es) :
    AllSteps step Q s es := by
  induction es generalizing s with
  | nil => trivial
  | cons e es ih =>
    obtain ⟨u, hu, hr⟩ := run_cons_eq_some.mp hr
    have he : e ∈ e :: es := List.mem_cons_self ..
    have hq := hmeets s e u he hs hu (h.2 u hu).head
    refine ⟨hq, fun v hv => ?_⟩
    obtain rfl : v = u := Option.some.inj (hv.symm.trans hu)
    exact ih (fun s f t hf => hkeep s f t (List.mem_cons_of_mem e hf))
      (fun s f t hf => hmeets s f t (List.mem_cons_of_mem e hf)) (hkeep s e v he hs hq hv) hr
      (h.2 v hv)

/-- If `J` implies `P`, a step that meets `Q` keeps `J`, and a step from `J` into `P` meets `Q`,
then `P` holds at every state of a run exactly when every step of it meets `Q`. -/
theorem allStates_iff_of_invariant {J P : σ → Prop} {Q : σ → ε → Prop} (hP : ∀ s, J s → P s)
    (hkeep : ∀ s e t, J s → Q s e → step s e = some t → J t)
    (hmeets : ∀ s e t, J s → step s e = some t → P t → Q s e)
    {s t : σ} {es : List ε} (hs : J s) (hr : run step s es = some t) :
    AllStates step P s es ↔ AllSteps step Q s es :=
  ⟨allSteps_of_allStates (fun s e t _ => hkeep s e t) (fun s e t _ => hmeets s e t) hs hr,
    fun h => (allStates_of_allSteps hkeep hs h).imp hP⟩

/-- If, under an invariant `I`, a step from a `P`-state leads to a `P`-state exactly when it meets
`Q`, then `P` holds at every state of a run exactly when every step of it meets `Q`: the first step
that misses `Q` is the first to leave `P`. -/
theorem allStates_iff_allSteps {I P : σ → Prop} {Q : σ → ε → Prop}
    (hinv : ∀ s e t, I s → step s e = some t → I t)
    (hstep : ∀ s e t, I s → P s → step s e = some t → (P t ↔ Q s e))
    {s t : σ} {es : List ε} (hi : I s) (hs : P s) (hr : run step s es = some t) :
    AllStates step P s es ↔ AllSteps step Q s es := by
  refine allStates_iff_of_invariant (J := fun s => I s ∧ P s) (fun _ h => h.2) ?_ ?_ ⟨hi, hs⟩ hr
  · intro s e t h hq ht
    exact ⟨hinv s e t h.1 ht, (hstep s e t h.1 h.2 ht).mpr hq⟩
  · intro s e t h ht hP
    exact (hstep s e t h.1 h.2 ht).mp hP

/-! ## Simulation -/

/-- **Forward simulation.** When every step that meets `Q`, from related states, is answered by a
run that relates the states again, so is every run of such steps. -/
theorem run_simulation {step' : τ → δ → Option τ} {R : σ → τ → Prop} {Q : σ → ε → Prop}
    (hstep : ∀ s e s' t, R s t → Q s e → step s e = some s' →
      ∃ fs t', run step' t fs = some t' ∧ R s' t')
    {s s' : σ} {t : τ} {es : List ε} (h : R s t) (hq : AllSteps step Q s es)
    (hr : run step s es = some s') : ∃ fs t', run step' t fs = some t' ∧ R s' t' := by
  induction es generalizing s t with
  | nil =>
    cases hr
    exact ⟨[], t, rfl, h⟩
  | cons e es ih =>
    obtain ⟨u, hu, hr⟩ := run_cons_eq_some.mp hr
    obtain ⟨fs, v, hfs, hv⟩ := hstep s e u t h hq.1 hu
    obtain ⟨gs, t', hgs, ht'⟩ := ih hv (hq.2 u hu) hr
    exact ⟨fs ++ gs, t', run_append_eq_some.mpr ⟨v, hfs, hgs⟩, ht'⟩

/-- **Abstraction.** When every step, seen through `f`, is a run, so is every run. -/
theorem run_abstraction {step' : τ → δ → Option τ} {I : σ → Prop} {f : σ → τ}
    (hinv : ∀ s e t, I s → step s e = some t → I t)
    (hstep : ∀ s e t, I s → step s e = some t → ∃ fs, run step' (f s) fs = some (f t))
    {s t : σ} {es : List ε} (hs : I s) (hr : run step s es = some t) :
    ∃ fs, run step' (f s) fs = some (f t) := by
  have hanswer : ∀ s e t x, I s ∧ x = f s → True → step s e = some t →
      ∃ fs y, run step' x fs = some y ∧ I t ∧ y = f t := by
    rintro s e t x ⟨hs, rfl⟩ - ht
    obtain ⟨fs, hfs⟩ := hstep s e t hs ht
    exact ⟨fs, _, hfs, hinv s e t hs ht, rfl⟩
  obtain ⟨fs, x, hfs, -, rfl⟩ := run_simulation hanswer ⟨hs, rfl⟩
    (allSteps_of_forall (fun _ _ => trivial) s es) hr
  exact ⟨fs, hfs⟩

/-! ## History -/

/-- The machine with a record of its run, to which `note` adds what happens at each event. -/
def recorded (step : σ → ε → Option σ) (note : σ → ε → τ → τ) (s : σ × τ) (e : ε) :
    Option (σ × τ) :=
  (step s.1 e).map fun t => (t, note s.1 e s.2)

theorem recorded_eq_some {note : σ → ε → τ → τ} {s t : σ × τ} {e : ε} :
    recorded step note s e = some t ↔ step s.1 e = some t.1 ∧ note s.1 e s.2 = t.2 := by
  rw [recorded, Option.map_eq_some_iff]
  constructor
  · rintro ⟨u, hu, rfl⟩
    exact ⟨hu, rfl⟩
  · rintro ⟨hu, hnote⟩
    exact ⟨t.1, hu, Prod.ext rfl hnote⟩

/-- **Every run can be recorded.** -/
theorem exists_run_recorded {note : σ → ε → τ → τ} {s t : σ} {es : List ε} (r : τ)
    (hr : run step s es = some t) : ∃ r', run (recorded step note) (s, r) es = some (t, r') := by
  induction es generalizing s r with
  | nil =>
    cases hr
    exact ⟨r, rfl⟩
  | cons e es ih =>
    obtain ⟨u, hu, hr⟩ := run_cons_eq_some.mp hr
    obtain ⟨r', hr'⟩ := ih (note s e r) hr
    refine ⟨r', run_cons_eq_some.mpr ⟨(u, note s e r), ?_, hr'⟩⟩
    exact recorded_eq_some.mpr ⟨hu, rfl⟩

/-! ## Ranks -/

/-- The same for events of one kind, with what comes in read from the states: however many there
are in a run beyond the rank of its first state, the meter has gone up by. -/
theorem run_meter {P : σ → Prop} (rank meter : σ → ℕ) (p : ε → Bool) {s t : σ} {es : List ε}
    (hstep : ∀ s e t, P s → e ∈ es → step s e = some t →
      P t ∧ rank t + (if p e then 1 else 0) + meter s ≤ rank s + meter t)
    (hs : P s) (hr : run step s es = some t) :
    rank t + es.countP p + meter s ≤ rank s + meter t := by
  induction es generalizing s with
  | nil =>
    cases hr
    simp
  | cons e es ih =>
    obtain ⟨u, hu, hr⟩ := run_cons_eq_some.mp hr
    obtain ⟨hP, hfirst⟩ := hstep s e u hs (List.mem_cons_self ..) hu
    have hrest := ih (fun s f t hs hf => hstep s f t hs (List.mem_cons_of_mem e hf)) hP hr
    rw [List.countP_cons]
    omega

/-- A machine that can lower its rank by events of `Q` as long as it is not done can be done. -/
theorem exists_run_of_rank {P D : σ → Prop} {Q : ε → Prop} (rank : σ → ℕ)
    (hstep : ∀ s, P s → ¬ D s → ∃ e t, Q e ∧ step s e = some t ∧ P t ∧ rank t < rank s) {s : σ}
    (hs : P s) : ∃ es t, (∀ e ∈ es, Q e) ∧ run step s es = some t ∧ P t ∧ D t := by
  induction hrank : rank s using Nat.strongRecOn generalizing s with
  | ind n ih =>
    by_cases hdone : D s
    · exact ⟨[], s, by simp, rfl, hs, hdone⟩
    · obtain ⟨e, u, hQ, hu, hP, hlt⟩ := hstep s hs hdone
      obtain ⟨es, t, hes, hr, ht, hD⟩ := ih (rank u) (hrank ▸ hlt) hP rfl
      exact ⟨e :: es, t, List.forall_mem_cons.mpr ⟨hQ, hes⟩, run_cons_eq_some.mpr ⟨u, hu, hr⟩, ht,
        hD⟩

end Transition
