import Ados.TimeWheel.Conservation
import Ados.TimeWheel.Horizon

/-!
# Deadlines in real time

`ExecuteAt` compares the timestamp of a time point, counted from the start time, with the time of
the current tick. The difference is unsigned: for a time point before the start time it is `2 ^ 63`
or more, and the call takes the task for one of a far deadline.

## Main definitions

* `TimeWheelExecutor.dueTick`: the tick of a time point at or after the start time
* `TimeWheelExecutor.ClassifiedByTime`: a call files what is due at the current tick or later, and
  hands the rest to `Execute`

## Main results

* `TimeWheelExecutor.not_late_of_before_start`: a deadline before the start time is never late
* `TimerLoop.classified_by_time_iff`: a call classifies a deadline by time exactly if it is not
  before the start time, and the search for its place ends at a wheel that is there
-/

namespace Ados.TimeWheel

open Transition

variable {Task : Type}

namespace TimeWheelExecutor

/-- The whole ticks between the start time and a time point that is not before it. -/
def dueTick (s : TimeWheelExecutor Task) (tp : ℤ) : ℕ :=
  (getTimestampNs tp - s.startTimePoint) / s.dtCount

/-- The time of the current tick. -/
def tickTime (s : TimeWheelExecutor Task) : ℕ := s.startTimePoint + s.currentTickCount * s.dtCount

/-- A call files a task for the time of the current tick or later, with the tick of its deadline,
and hands any other task to `Execute`. -/
structure ClassifiedByTime (s : TimeWheelExecutor Task) (tp : ℤ) (task : Task) : Prop where
  due : s.tickTime ≤ getTimestampNs tp →
    s.currentTickCount ≤ s.dueTick tp ∧
      ∃ s', s.executeAt tp task = .ok (some ⟨s.dueTick tp, task⟩, s') ∧
        held s'.timingWheelVec s'.timingTaskMap =
          held s.timingWheelVec s.timingTaskMap + {⟨s.dueTick tp, task⟩}
  late : getTimestampNs tp < s.tickTime → s.executeAt tp task = .ok (none, s)

variable {s : TimeWheelExecutor Task} {tp : ℤ} {task : Task}

theorem deadline_of_le (h : s.startTimePoint ≤ getTimestampNs tp) :
    s.deadline tp = s.dueTick tp := by
  rw [deadline, virtualTp_of_le h, dueTick]

/-- Before the start time the difference wraps around. -/
theorem le_virtualTp_of_lt (hstart : s.startTimePoint < 2 ^ 63)
    (h : getTimestampNs tp < s.startTimePoint) : 2 ^ 63 ≤ s.virtualTp tp := by
  unfold virtualTp wrap64
  omega

theorem start_le_tickTime (s : TimeWheelExecutor Task) : s.startTimePoint ≤ s.tickTime :=
  Nat.le_add_right _ _

/-- Without a wrap-around of the time of the current tick, a task is late if its difference is below
the one of that tick. -/
theorem late_iff (htime : s.tickTime < 2 ^ 63) :
    s.Late tp ↔ s.virtualTp tp < s.currentTickCount * s.dtCount := by
  have hle : s.currentTickCount * s.dtCount ≤ s.tickTime := Nat.le_add_left _ _
  have hmod : s.currentTickCount * s.dtCount % 2 ^ 64 = s.currentTickCount * s.dtCount := by
    apply Nat.mod_eq_of_lt
    omega
  rw [Late, hmod]

/-- A deadline before the start time is never taken for a late one. -/
theorem not_late_of_before_start (htime : s.tickTime < 2 ^ 63)
    (h : getTimestampNs tp < s.startTimePoint) : ¬ s.Late tp := by
  have hstart := s.start_le_tickTime
  have hwrap : 2 ^ 63 ≤ s.virtualTp tp := le_virtualTp_of_lt (by omega) h
  have hle : s.currentTickCount * s.dtCount ≤ s.tickTime := Nat.le_add_left _ _
  rw [late_iff htime]
  omega

/-- From the start time on a task is late exactly if its deadline is before the current tick. -/
theorem late_iff_lt (htime : s.tickTime < 2 ^ 63) (h : s.startTimePoint ≤ getTimestampNs tp) :
    s.Late tp ↔ getTimestampNs tp < s.tickTime := by
  rw [late_iff htime, virtualTp_of_le h, tickTime]
  omega

/-- A task that is not late is not handed to `Execute`. -/
theorem executeAt_ne_none (hlate : ¬ s.Late tp) (s' : TimeWheelExecutor Task) :
    s.executeAt tp task ≠ .ok (none, s') := by
  intro h
  rcases executeAt_appends h with ⟨hlt, -, -⟩ | ⟨-, -, hr, -⟩
  · exact hlate hlt
  · cases hr

/-- The tick of a deadline at the time of the current tick or later is not before that tick. -/
theorem le_dueTick (hdt : 0 < s.dtCount) (h : s.tickTime ≤ getTimestampNs tp) :
    s.currentTickCount ≤ s.dueTick tp := by
  rw [dueTick, Nat.le_div_iff_mul_le hdt]
  unfold tickTime at h
  omega

/-- A call that finds its place, and a wheel for it if it needs one, files the task. -/
theorem exists_executeAt_eq_ok (hdt : 0 < s.dtCount) (hle : s.currentTickCount ≤ s.deadline tp)
    (hzero : AvoidsZero s.options.wheelSize (s.horizon tp))
    (h : (digits s.timingWheelVec).map Digit.size = s.options.wheelSize ∨
      ∀ k < s.options.wheelSize.length, S s.options.wheelSize k ≤ s.horizon tp) :
    ∃ s', s.executeAt tp task = .ok (some ⟨s.deadline tp, task⟩, s') := by
  by_cases hfar : ∀ k < s.options.wheelSize.length, S s.options.wheelSize k ≤ s.horizon tp
  · exact ⟨_, executeAt_of_far hdt hle hzero hfar⟩
  · have hsizes := h.resolve_right hfar
    rcases exists_place hzero (horizon_add_lt hle) with ⟨i, size, hi, hlevel, -⟩ | ⟨hfar', -⟩
    · obtain ⟨w, l, hw, hl⟩ := exists_slot (s.index tp i) hsizes hi (hlevel.size_pos hi)
      exact ⟨_, executeAt_of_level hdt hle hzero hi hlevel hw hl⟩
    · exact absurd hfar' hfar

/-- A call that files a task has found its place, which is the map if there are no wheels. -/
theorem avoidsZero_of_executeAt {r : Option (TaskWithTimestamp Task) × TimeWheelExecutor Task}
    (hdt : 0 < s.dtCount) (hle : s.currentTickCount ≤ s.deadline tp)
    (h : s.executeAt tp task = .ok r) :
    AvoidsZero s.options.wheelSize (s.horizon tp) ∧
      (s.timingWheelVec = [] →
        ∀ k < s.options.wheelSize.length, S s.options.wheelSize k ≤ s.horizon tp) := by
  rw [executeAt_eq hdt hle] at h
  have hzero : AvoidsZero s.options.wheelSize (s.horizon tp) := by
    by_contra hzero
    rw [locate_of_not_avoidsZero hzero] at h
    cases h
  refine ⟨hzero, fun hnil => ?_⟩
  rcases exists_place hzero (horizon_add_lt hle) with ⟨i, size, -, -, hplace⟩ | ⟨hfar, -⟩
  · rw [hplace, hnil] at h
    cases h
  · exact hfar

/-- A call adds the task that it files to what is held. -/
theorem held_executeAt {e : TaskWithTimestamp Task} {s' : TimeWheelExecutor Task}
    (h : s.executeAt tp task = .ok (some e, s')) :
    held s'.timingWheelVec s'.timingTaskMap =
      held s.timingWheelVec s.timingTaskMap + {e} := by
  rcases executeAt_appends h with ⟨-, hr, -⟩ | ⟨-, -, hr, place, happends⟩
  · cases hr
  · cases hr
    exact held_put happends.filed

/-- With all its wheels, or none, an executor classifies a deadline by time exactly if it is not
before the start time and the search for its place ends at a wheel that is there. -/
theorem classifiedByTime_iff (hdt : 0 < s.dtCount) (htime : s.tickTime < 2 ^ 63)
    (hvec : (digits s.timingWheelVec).map Digit.size = s.options.wheelSize ∨
      s.timingWheelVec = []) :
    s.ClassifiedByTime tp task ↔ s.startTimePoint ≤ getTimestampNs tp ∧
      (s.tickTime ≤ getTimestampNs tp →
        AvoidsZero s.options.wheelSize (s.dueTick tp - s.currentTickCount) ∧
          (s.timingWheelVec = [] → ∀ k < s.options.wheelSize.length,
            S s.options.wheelSize k ≤ s.dueTick tp - s.currentTickCount)) := by
  constructor
  · intro h
    -- before the start time the difference is too large to be taken for late
    have hstart : s.startTimePoint ≤ getTimestampNs tp := by
      by_contra hbefore
      rw [Nat.not_le] at hbefore
      have hlate := h.late (lt_of_lt_of_le hbefore s.start_le_tickTime)
      exact executeAt_ne_none (not_late_of_before_start htime hbefore) s hlate
    refine ⟨hstart, fun hdue => ?_⟩
    obtain ⟨hle, s', hexec, -⟩ := h.due hdue
    rw [← deadline_of_le hstart] at hle ⊢
    exact avoidsZero_of_executeAt hdt hle hexec
  · rintro ⟨hstart, hplace⟩
    constructor
    · intro hdue
      have hle := le_dueTick hdt hdue
      obtain ⟨hzero, hnil⟩ := hplace hdue
      rw [← deadline_of_le hstart] at hle hzero hnil ⊢
      obtain ⟨s', hexec⟩ : ∃ s', s.executeAt tp task = .ok (some ⟨s.deadline tp, task⟩, s') :=
        exists_executeAt_eq_ok hdt hle hzero (hvec.imp_right hnil)
      exact ⟨hle, s', hexec, held_executeAt hexec⟩
    · intro hlt
      exact executeAt_of_late ((late_iff_lt htime hstart).mpr hlt)

end TimeWheelExecutor

namespace TimerLoop

variable {options : Options} {s : TimerLoop} {es : List Act}

/-- The wheels are gone exactly after `Shutdown` has cleared them, unless there never were any. -/
theorem timingWheelVec_eq_nil_iff (hr : run step (initial options) es = some s) :
    s.exec.timingWheelVec = [] ↔ .join ∈ es ∨ options.wheelSize = [] := by
  by_cases hjoin : .join ∈ es
  · exact iff_of_true (cleared_run hr hjoin) (Or.inl hjoin)
  · rw [← sizes_run hr hjoin]
    simp [hjoin, digits]

/-- **A call classifies a deadline by time exactly if it is not before the start time, and its place
is there.** In every state that the executor reaches while the time of the tick fits 63 bits, and
for every time point, a call files what is due at the current tick or later and hands the rest to
`Execute`, if and only if the time point is not before the start time and, when it is due, the
search divides by no size `0` and does not end at a wheel that `Shutdown` has cleared. -/
theorem classified_by_time_iff (hdt : 1 ≤ options.dt)
    (hr : run step (initial options) es = some s) (htime : s.exec.tickTime < 2 ^ 63) (tp : ℤ)
    (task : Call) :
    s.exec.ClassifiedByTime tp task ↔
      s.exec.startTimePoint ≤ getTimestampNs tp ∧
        (s.exec.tickTime ≤ getTimestampNs tp →
          AvoidsZero options.wheelSize (s.exec.dueTick tp - s.exec.currentTickCount) ∧
            (.join ∈ es → ∀ k < options.wheelSize.length,
              S options.wheelSize k ≤ s.exec.dueTick tp - s.exec.currentTickCount)) := by
  have hconf := configured_run hr
  have hdt' : 0 < s.exec.dtCount := hconf.dtCount_pos (by omega)
  have hvec : (digits s.exec.timingWheelVec).map Digit.size = s.exec.options.wheelSize ∨
      s.exec.timingWheelVec = [] := by
    by_cases hjoin : .join ∈ es
    · exact Or.inr (cleared_run hr hjoin)
    · exact Or.inl ((sizes_run hr hjoin).trans (congrArg _ hconf.options_eq.symm))
  rw [TimeWheelExecutor.classifiedByTime_iff hdt' htime hvec, hconf.options_eq,
    timingWheelVec_eq_nil_iff hr]
  have hnone : options.wheelSize = [] → ∀ k < options.wheelSize.length,
      S options.wheelSize k ≤ s.exec.dueTick tp - s.exec.currentTickCount := by
    intro hnil k hk
    rw [hnil] at hk
    exact absurd hk (Nat.not_lt_zero k)
  rw [or_imp, and_iff_left hnone]

/-- After the first tick, a task for that tick is handed to `Execute` and one for the next is filed.
-/
theorem classified_by_time_iff_ticked :
    ∃ s, run step (initial { dt := 1, wheelSize := [2, 2] }) tickedRun = some s ∧
      s.exec.currentTickCount = 1 ∧ s.exec.ClassifiedByTime 0 ⟨0, 1⟩ ∧
      s.exec.ClassifiedByTime 2 ⟨0, 1⟩ := by
  have h : ((run step (initial { dt := 1, wheelSize := [2, 2] }) tickedRun).map fun s =>
      (s.exec.startTimePoint, s.exec.tickTime, s.exec.currentTickCount)) = some (0, 1, 1) := by
    decide +kernel
  obtain ⟨s, hs, hval⟩ := Option.map_eq_some_iff.mp h
  simp only [Prod.mk.injEq] at hval
  obtain ⟨hstart, htime, hcount⟩ := hval
  have htime' : s.exec.tickTime < 2 ^ 63 := by
    rw [htime]
    decide
  have hzero : ∀ n, AvoidsZero [2, 2] n := fun n => avoidsZero_of_pos (by decide)
  have hlate := classified_by_time_iff (by decide) hs htime' 0 ⟨0, 1⟩
  have hdue := classified_by_time_iff (by decide) hs htime' 2 ⟨0, 1⟩
  rw [hstart] at hlate hdue
  refine ⟨s, hs, hcount, hlate.mpr ⟨Nat.zero_le _, fun _ => ⟨hzero _, ?_⟩⟩,
    hdue.mpr ⟨Nat.zero_le _, fun _ => ⟨hzero _, ?_⟩⟩⟩
  · exact fun hjoin => absurd hjoin (by decide)
  · exact fun hjoin => absurd hjoin (by decide)

/-- With a start time of 10 ns a task for 5 ns is not handed to `Execute`. -/
theorem not_classifiedByTime_before_start :
    ∃ s, run step (initial {}) [.start, .clock 10] = some s ∧ s.exec.tickTime < 2 ^ 63 ∧
      getTimestampNs 5 < s.exec.tickTime ∧ ¬ s.exec.ClassifiedByTime 5 ⟨0, 0⟩ := by
  refine ⟨_, rfl, by decide, by decide, ?_⟩
  intro h
  have hlate := h.late (by decide)
  exact TimeWheelExecutor.executeAt_ne_none
    (TimeWheelExecutor.not_late_of_before_start (by decide) (by decide)) _ hlate

end TimerLoop

end Ados.TimeWheel
