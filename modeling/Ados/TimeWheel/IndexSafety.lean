import Ados.TimeWheel.Filing
import Ados.TimeWheel.TimerLoop

/-!
# The indices of `ExecuteAt`

`ExecuteAt` runs over `options_.wheel_size` and indexes `timing_wheel_vec_`. `Initialize` fills the
vector with one wheel for each size, no tick and no call changes the number of slots of a wheel, and
`Shutdown` clears the vector and leaves the options as they are.

## Main definitions

* `TimeWheelExecutor.Late`: the task goes to `Execute`
* `TimeWheelExecutor.FarAhead`: the task goes to the map
* `TimerLoop.Configured`: the options are those of `Initialize`

## Main results

* `locate_cases`: a slot that is chosen is a slot of a wheel with the size of that level
* `TimerLoop.indices_in_range_iff`: a call is index-safe exactly if `Shutdown` has not cleared the
  wheels, or the task is late or goes to the map
-/

namespace Ados.TimeWheel

open Transition

variable {Task : Type} {wheelSize : List ℕ}

/-- A task beyond all wheels goes to the map, any other to a slot of its level. -/
theorem locate_cases (hpos : ∀ w ∈ wheelSize, 0 < w) (ii diff tmp : ℕ) :
    (∃ key, locate ii wheelSize diff tmp = .ok (.map key) ∧
        (wheelSize = [] ∨ wheelSize.prod ≤ diff)) ∨
      ∃ j p size, locate ii wheelSize diff tmp = .ok (.slot (ii + j) p) ∧
        wheelSize[j]? = some size ∧ p < size ∧ diff < wheelSize.prod := by
  induction wheelSize generalizing ii diff tmp with
  | nil => exact Or.inl ⟨_, rfl, Or.inl rfl⟩
  | cons size ws ih =>
    have hsize : 0 < size := hpos size (by simp)
    have hws : ∀ w ∈ ws, 0 < w := fun w hw => hpos w (by simp [hw])
    have hprod : 0 < ws.prod := List.prod_pos hws
    rw [locate, List.prod_cons]
    by_cases hd : diff < size
    · refine Or.inr ⟨0, _, size, if_pos hd, rfl, Nat.mod_lt _ hsize, ?_⟩
      exact lt_of_lt_of_le hd (Nat.le_mul_of_pos_right size hprod)
    · rw [if_neg hd, if_neg hsize.ne']
      rcases ih hws (ii + 1) (diff / size) (tmp / size) with
        ⟨key, hkey, hfar⟩ | ⟨j, p, v, hslot, hv, hp, hlt⟩
      · refine Or.inl ⟨key, hkey, Or.inr ?_⟩
        rcases hfar with rfl | hfar
        · simpa using hd
        · rw [Nat.mul_comm]
          exact (Nat.le_div_iff_mul_le hsize).mp hfar
      · refine Or.inr ⟨j + 1, p, v, ?_, by simpa using hv, hp, ?_⟩
        · rw [hslot, Nat.add_assoc, Nat.add_comm 1]
        · rw [Nat.mul_comm]
          exact (Nat.div_lt_iff_lt_mul hsize).mp hlt

/-- Filing in a slot that a wheel has is possible. -/
theorem put_slot_eq_ok {vec : List (TimingWheelTool Task)} {p size : ℕ}
    (hsize : ((digits vec).map Digit.size)[ii]? = some size) (hp : p < size)
    (m : TimingTaskMap Task) (e : TaskWithTimestamp Task) :
    ∃ r, put vec m (.slot ii p) e = .ok r := by
  obtain ⟨w, hw, rfl⟩ : ∃ w, vec[ii]? = some w ∧ w.wheel.length = size := by
    simpa [digits] using hsize
  simp [put, hw, TimingWheelTool.emplaceBack, List.getElem?_eq_getElem hp, Except.bind]

namespace TimeWheelExecutor

/-- The task goes to `Execute`. -/
def Late (s : TimeWheelExecutor Task) (tp : ℤ) : Prop :=
  s.virtualTp tp < s.currentTickCount * s.dtCount % 2 ^ 64

/-- The horizon, in ticks, is the product of the sizes at least: the task goes to the map. -/
def FarAhead (s : TimeWheelExecutor Task) (tp : ℤ) : Prop :=
  s.options.wheelSize.prod ≤ wrap64 (↑(s.virtualTp tp / s.dtCount) - s.currentTickCount)

variable {s : TimeWheelExecutor Task} {tp : ℤ} {task : Task}

theorem executeAt_of_late (hlate : s.Late tp) : s.executeAt tp task = .ok (none, s) := if_pos hlate

theorem executeAt_of_not_late (hlate : ¬ s.Late tp) (hdt : 0 < s.dtCount) :
    s.executeAt tp task = (locate 0 s.options.wheelSize
      (wrap64 (↑(s.virtualTp tp / s.dtCount) - s.currentTickCount)) s.currentTickCount).bind
        fun place => (put s.timingWheelVec s.timingTaskMap place
          ⟨s.virtualTp tp / s.dtCount, task⟩).bind fun r =>
            .ok (some ⟨s.virtualTp tp / s.dtCount, task⟩,
              { s with timingWheelVec := r.1, timingTaskMap := r.2 }) :=
  (if_neg hlate).trans (if_neg hdt.ne')

/-- With a wheel of its size for each level, a call is index-safe. -/
theorem executeAt_ne_outOfRange (hpos : ∀ w ∈ s.options.wheelSize, 0 < w) (hdt : 0 < s.dtCount)
    (hsizes : (digits s.timingWheelVec).map Digit.size = s.options.wheelSize) :
    s.executeAt tp task ≠ .error .outOfRange := by
  by_cases hlate : s.Late tp
  · simp [executeAt_of_late hlate]
  · rw [executeAt_of_not_late hlate hdt]
    rcases locate_cases hpos 0 _ _ with ⟨key, hkey, -⟩ | ⟨j, p, size, hslot, hsize, hp, -⟩
    · rw [hkey]
      simp [Except.bind, put]
    · rw [← hsizes] at hsize
      obtain ⟨r, hr⟩ := put_slot_eq_ok hsize hp s.timingTaskMap
        ⟨s.virtualTp tp / s.dtCount, task⟩
      rw [hslot, Nat.zero_add]
      simp [Except.bind, hr]

/-- Without wheels, a call is index-safe only if it needs none. -/
theorem executeAt_ne_outOfRange_iff (hpos : ∀ w ∈ s.options.wheelSize, 0 < w)
    (hne : s.options.wheelSize ≠ []) (hdt : 0 < s.dtCount) (hnil : s.timingWheelVec = []) :
    s.executeAt tp task ≠ .error .outOfRange ↔ s.Late tp ∨ s.FarAhead tp := by
  by_cases hlate : s.Late tp
  · exact iff_of_true (by simp [executeAt_of_late hlate]) (Or.inl hlate)
  · rw [executeAt_of_not_late hlate hdt]
    rcases locate_cases hpos 0 _ _ with ⟨key, hkey, hfar⟩ | ⟨j, p, size, hslot, -, -, hlt⟩
    · refine iff_of_true ?_ (Or.inr (hfar.resolve_left hne))
      rw [hkey]
      simp [Except.bind, put]
    · refine iff_of_false ?_ ?_
      · rw [hslot, hnil]
        simp [Except.bind, put]
      · rintro (h | hfar)
        · exact hlate h
        · exact absurd hfar (Nat.not_le.mpr hlt)

end TimeWheelExecutor

namespace TimerLoop

variable {options : Options} {s s' u : TimerLoop} {a : Act} {es : List Act}

/-- The options are those of `Initialize`. -/
structure Configured (options : Options) (s : TimerLoop) : Prop where
  options_eq : s.exec.options = options
  dtCount_eq : s.exec.dtCount = options.dtCount

theorem configured_initial : Configured options (initial options) := ⟨rfl, rfl⟩

theorem Configured.step (h : Configured options s) (hs : Step s a s') : Configured options s' := by
  cases hs with
  | empty _ htake | taken _ _ htake =>
    rw [(ticks_of_takeTick htake).2]
    exact ⟨h.options_eq, h.dtCount_eq⟩
  | executeAt hexec =>
    rw [executeAt_rest hexec]
    exact ⟨h.options_eq, h.dtCount_eq⟩
  | _ => exact ⟨h.options_eq, h.dtCount_eq⟩

theorem configured_run (hr : run step (initial options) es = some s) : Configured options s :=
  run_invariant (fun _ _ _ h hs => h.step (step_cases hs)) configured_initial hr

/-- No step but the last of `Shutdown` changes the number of wheels and their slots. -/
theorem Step.sizes_eq (hs : Step s a s') (ha : a ≠ .join) :
    (digits s'.exec.timingWheelVec).map Digit.size =
      (digits s.exec.timingWheelVec).map Digit.size := by
  cases hs with
  | empty _ htake | taken _ _ htake =>
    obtain ⟨hticks, -⟩ := ticks_of_takeTick htake
    simp only [TimeWheelExecutor.countTick]
    rw [hticks.digits, Odometer.map_size_advance]
  | executeAt hexec => simp only [(executeAt_digits hexec).1]
  | join _ _ => exact absurd rfl ha
  | _ => rfl

/-- Until `Shutdown` has cleared them there is a wheel of its size for each level. -/
theorem sizes_run (hr : run step (initial options) es = some s) (hjoin : .join ∉ es) :
    (digits s.exec.timingWheelVec).map Digit.size = options.wheelSize := by
  refine run_invariant_of_mem (P := fun s =>
    (digits s.exec.timingWheelVec).map Digit.size = options.wheelSize) ?_ ?_ hr
  · intro s a t h ha hs
    rw [(step_cases hs).sizes_eq fun heq => hjoin (heq ▸ ha)]
    exact h
  · simp only [initial, TimeWheelExecutor.initialized, TimeWheelExecutor.initializeWith, if_true,
      List.nil_append, digits_makeWheels]
    cases options.wheelSize <;> simp [startDigits, Function.comp_def]

/-- No step brings cleared wheels back. -/
theorem Step.eq_nil (hs : Step s a s') (h : s.exec.timingWheelVec = []) :
    s'.exec.timingWheelVec = [] := by
  by_cases ha : a = .join
  · subst ha
    cases hs with
    | join _ _ => rfl
  · have hsizes := hs.sizes_eq ha
    rw [h] at hsizes
    simpa [digits] using hsizes

/-- Once cleared, the wheels stay so. -/
theorem cleared_run (hr : run step (initial options) es = some s) (hjoin : .join ∈ es) :
    s.exec.timingWheelVec = [] := by
  obtain ⟨es₁, es₂, rfl⟩ := List.append_of_mem hjoin
  obtain ⟨v, -, hr⟩ := run_append_eq_some.mp hr
  obtain ⟨t, ht, hr⟩ := run_cons_eq_some.mp hr
  have hcleared : t.exec.timingWheelVec = [] := by
    cases step_cases ht with
    | join _ _ => rfl
  exact run_invariant (fun s a t h hs => (step_cases hs).eq_nil h) hcleared hr

theorem Configured.dtCount_pos (h : Configured options s) (hdt : options.dt ≠ 0) :
    0 < s.exec.dtCount := by
  rw [h.dtCount_eq]
  exact Options.dtCount_pos_iff.mpr hdt

/-- **A call of `ExecuteAt` is index-safe exactly if it finds the wheels or needs none.** In every
state that the executor reaches, a call with any time point stays within the bounds of
`timing_wheel_vec_` and of the wheel, if and only if `Shutdown` has not cleared the wheels, or the
task is late, or it goes to the map. -/
theorem indices_in_range_iff (hne : options.wheelSize ≠ [])
    (hsize : ∀ w ∈ options.wheelSize, 2 ≤ w) (hdt : options.dt ≠ 0)
    (hr : run step (initial options) es = some s) (tp : ℤ) (task : Call) :
    s.exec.executeAt tp task ≠ .error .outOfRange ↔
      .join ∉ es ∨ s.exec.Late tp ∨ s.exec.FarAhead tp := by
  have h := configured_run hr
  have hpos : ∀ w ∈ s.exec.options.wheelSize, 0 < w := by
    rw [h.options_eq]
    exact fun w hw => lt_of_lt_of_le Nat.zero_lt_two (hsize w hw)
  have hdt' := h.dtCount_pos hdt
  by_cases hjoin : .join ∈ es
  · rw [TimeWheelExecutor.executeAt_ne_outOfRange_iff hpos (h.options_eq ▸ hne) hdt'
      (cleared_run hr hjoin)]
    simp [hjoin]
  · refine iff_of_true ?_ (Or.inl hjoin)
    apply TimeWheelExecutor.executeAt_ne_outOfRange hpos hdt'
    rw [sizes_run hr hjoin, h.options_eq]

/-- The run through the first tick, without tasks. -/
def tickedRun : List Act := [.start, .clock 0, .loop, .loop, .loop, .loop]

/-- A call after the first tick, and one after `Shutdown` as well. -/
theorem indices_in_range_iff_ticked :
    ∃ s u, run step (initial { dt := 1, wheelSize := [2] }) tickedRun = some s ∧
      s.exec.currentTickCount = 1 ∧ s.exec.executeAt 1 ⟨0, 1⟩ ≠ .error .outOfRange ∧
      run step (initial { dt := 1, wheelSize := [2] })
        (tickedRun ++ [.shutdown, .loop, .join]) = some u ∧
      (u.exec.executeAt 1 ⟨0, 1⟩ ≠ .error .outOfRange ↔ u.exec.Late 1 ∨ u.exec.FarAhead 1) := by
  have h : ((run step (initial { dt := 1, wheelSize := [2] }) tickedRun).bind fun s =>
      (run step (initial { dt := 1, wheelSize := [2] })
        (tickedRun ++ [.shutdown, .loop, .join])).map fun _ => s.exec.currentTickCount) =
          some 1 := by
    decide +kernel
  obtain ⟨s, hs, h⟩ := Option.bind_eq_some_iff.mp h
  obtain ⟨u, hu, hcount⟩ := Option.map_eq_some_iff.mp h
  have hticked := indices_in_range_iff (by decide) (by decide) (by decide) hs 1 ⟨0, 1⟩
  have hcleared := indices_in_range_iff (by decide) (by decide) (by decide) hu 1 ⟨0, 1⟩
  refine ⟨s, u, hs, hcount, hticked.mpr (Or.inl (by decide)), hu, ?_⟩
  rw [hcleared, or_iff_right (by decide)]

/-- After `Shutdown` a call for the first tick indexes a vector without elements. -/
theorem index_out_of_range :
    ∃ s, run step (initial {}) [.start, .clock 0, .shutdown, .loop, .join] = some s ∧
      s.exec.timingWheelVec = [] ∧ s.exec.executeAt 0 ⟨0, 0⟩ = .error .outOfRange := by
  have h : ((run step (initial {}) [.start, .clock 0, .shutdown, .loop, .join]).map fun s =>
      (s.exec.timingWheelVec.length, (s.exec.executeAt 0 ⟨0, 0⟩).map fun _ => ())) =
        some (0, .error .outOfRange) := by
    decide +kernel
  obtain ⟨s, hs, hval⟩ := Option.map_eq_some_iff.mp h
  obtain ⟨hlen, hfault⟩ := Prod.mk.inj hval
  refine ⟨s, hs, List.length_eq_zero_iff.mp hlen, ?_⟩
  cases hcall : s.exec.executeAt 0 ⟨0, 0⟩ with
  | error fault =>
    rw [hcall] at hfault
    exact congrArg Except.error (Except.error.inj hfault)
  | ok r =>
    rw [hcall] at hfault
    exact absurd hfault (by simp [Except.map])

end TimerLoop

end Ados.TimeWheel
