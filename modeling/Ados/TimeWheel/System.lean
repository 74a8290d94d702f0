import Ados.Lib.Run
import Ados.TimeWheel.Filing

/-!
# Runs of whole ticks

An executor with its clock, its timer loop advancing by whole ticks and `ExecuteAt` called in
between. A run starts from the state left by `Initialize`; `Start` reads the clock; a tick moves
`last_loop_time_point` by `dt`, takes the list of the first wheel and counts. A run ends before the
first event without defined behaviour: an index out of range, a division by zero, a time point that
the clock cannot represent.

Every call of `ExecuteAt` is known by its number and by the tick at which it was made. These and the
history of filed and returned tasks are no part of the code; nothing reads them but the statements.

## Main definitions

* `Call`: a call of `ExecuteAt`
* `Timer`, `Event`, `Timer.step`: the executor with its history, and its events
* `Timer.Sound`: what holds of positions, scales and clock in every run

## Main results

* `Timer.step_cases`: what one event can do
* `Timer.Sound.run`: every run keeps `Timer.Sound`
-/

namespace Ados.TimeWheel

open Transition

/-- A call of `ExecuteAt`: its number, and `current_tick_count_` when it was made. -/
structure Call where
  id : ℕ
  madeAt : ℕ
  deriving DecidableEq, Repr

abbrev Entry := TaskWithTimestamp Call

/-- An executor with its clock, the number of calls made, the tasks filed and those returned by
`timing_wheel_vec_[0].Tick()`, each with the tick that returned it. -/
structure Timer where
  exec : TimeWheelExecutor Call
  lastLoopTimePoint : ℤ := 0
  calls : ℕ := 0
  filed : List Entry := []
  returned : List (ℕ × Entry) := []

inductive Event where
  | start (now : ℤ)
  | executeAt (tp : ℤ)
  | tick
  deriving DecidableEq, Repr

namespace Timer

/-- An executor after `Initialize`. -/
def initial (options : Options) : Timer := { exec := .initialized options }

/-- One event: `Start` with a reading of the clock, a call of `ExecuteAt` between ticks, or a tick
of the timer loop. -/
def step (t : Timer) : Event → Option Timer
  | .start now =>
    if t.exec.state = .init ∧ IsTimePoint now then
      some { t with
        exec := { t.exec with state := .start, startTimePoint := getTimestampNs now }
        lastLoopTimePoint := now }
    else none
  | .executeAt tp =>
    (t.exec.executeAt tp ⟨t.calls, t.exec.currentTickCount⟩).toOption.map fun r =>
      { t with exec := r.2, calls := t.calls + 1, filed := t.filed ++ r.1.toList }
  | .tick =>
    if t.exec.state = .start ∧ IsTimePoint (t.lastLoopTimePoint + t.exec.options.dt) then
      t.exec.timerTick.toOption.map fun r =>
        { t with
          exec := r.2
          lastLoopTimePoint := t.lastLoopTimePoint + t.exec.options.dt
          returned := t.returned ++ r.1.map fun e => (t.exec.currentTickCount, e) }
    else none

theorem toOption_eq_some {α β : Type} {x : Except Fault α} {f : α → β} {b : β} :
    x.toOption.map f = some b ↔ ∃ a, x = .ok a ∧ f a = b := by
  cases x <;> simp [Except.toOption]

/-- What one event can do. -/
inductive Step (t : Timer) : Event → Timer → Prop
  | start {now} : t.exec.state = .init → IsTimePoint now →
      Step t (.start now) { t with
        exec := { t.exec with state := .start, startTimePoint := getTimestampNs now }
        lastLoopTimePoint := now }
  | executeAt {tp entry exec} :
      t.exec.executeAt tp ⟨t.calls, t.exec.currentTickCount⟩ = .ok (entry, exec) →
      Step t (.executeAt tp) { t with
        exec := exec, calls := t.calls + 1, filed := t.filed ++ entry.toList }
  | tick {taskList exec} :
      t.exec.state = .start → IsTimePoint (t.lastLoopTimePoint + t.exec.options.dt) →
      t.exec.takeTick = .ok (taskList, exec) →
      Step t .tick { t with
        exec := exec.countTick
        lastLoopTimePoint := t.lastLoopTimePoint + t.exec.options.dt
        returned := t.returned ++ taskList.map fun e => (t.exec.currentTickCount, e) }

theorem step_cases {t t' : Timer} {e : Event} (h : step t e = some t') : Step t e t' := by
  cases e with
  | start now =>
    simp only [step] at h
    split at h
    · next hs =>
      cases h
      exact .start hs.1 hs.2
    · exact absurd h (by simp)
  | executeAt tp =>
    obtain ⟨r, hr, rfl⟩ := toOption_eq_some.mp h
    exact .executeAt hr
  | tick =>
    simp only [step] at h
    split at h
    · next hs =>
      obtain ⟨r, hr, rfl⟩ := toOption_eq_some.mp h
      obtain ⟨⟨taskList, exec⟩, htake, hr⟩ := bind_eq_ok.mp hr
      cases hr
      exact .tick hs.1 hs.2 htake
    · exact absurd h (by simp)

/-- Only a tick moves the counter. -/
theorem Step.count_le {t t' : Timer} {e : Event} (h : Step t e t') :
    t.exec.currentTickCount ≤ t'.exec.currentTickCount := by
  cases h with
  | start _ _ => exact Nat.le_refl _
  | executeAt he => rw [executeAt_rest he]
  | tick _ _ ht =>
    rw [(ticks_of_takeTick ht).2]
    exact Nat.le_succ _

/-! ## What every run keeps -/

/-- Positions, scales, options and clock of an executor in a run. The clock bounds the counter: its
first reading and its last value are time points, and `current_tick_count_ * dt` lies between. -/
structure Sound (options : Options) (t : Timer) : Prop where
  options_eq : t.exec.options = options
  dtCount_eq : t.exec.dtCount = options.dtCount
  aligned : Aligned options.wheelSize t.exec.currentTickCount t.exec.timingWheelVec
    t.exec.timingTaskMap
  scales : t.exec.timingWheelVec.map (·.scale) =
    (makeWheels 0 1 options.wheelSize : List (TimingWheelTool Call)).map (·.scale)
  clock : t.exec.state = .init ∧ t.exec.currentTickCount = 0 ∨
    t.exec.state = .start ∧ IsTimePoint t.lastLoopTimePoint ∧
      IsTimePoint (t.lastLoopTimePoint - t.exec.currentTickCount * options.dt)

namespace Sound

variable {options : Options} {t t' : Timer} {e : Event}

theorem initial (hv : ValidSizes options.wheelSize) : Sound options (initial options) :=
  ⟨rfl, rfl, Aligned.initialized hv, rfl, Or.inl ⟨rfl, rfl⟩⟩

/-- The time of the current tick, counted from the start, is less than the range of the clock. -/
theorem elapsed (h : Sound options t) : -2 ^ 64 < t.exec.currentTickCount * options.dt ∧
    t.exec.currentTickCount * options.dt < 2 ^ 64 := by
  rcases h.clock with ⟨-, hc⟩ | ⟨-, hlast, hfirst⟩
  · simp [hc]
  · unfold IsTimePoint at hlast hfirst
    omega

/-- With a `dt` that is not negative, nothing wraps around in the time arithmetic of `ExecuteAt`. -/
theorem noWrap (h : Sound options t) (hdt : 0 ≤ options.dt) :
    t.exec.currentTickCount * t.exec.dtCount < 2 ^ 64 := by
  have hlt := h.elapsed.2
  rw [← Options.dtCount_cast hdt] at hlt
  rw [h.dtCount_eq]
  exact_mod_cast hlt

/-- A `dt` that is not `0` bounds the counter. -/
theorem count_lt (h : Sound options t) (hdt : options.dt ≠ 0) :
    t.exec.currentTickCount < 2 ^ 64 := by
  obtain ⟨hlo, hhi⟩ := h.elapsed
  rcases Int.lt_or_gt_of_ne hdt with hneg | hpos
  · have hmul : (t.exec.currentTickCount : ℤ) * options.dt ≤ t.exec.currentTickCount * -1 :=
      Int.mul_le_mul_of_nonneg_left (by omega) (Int.natCast_nonneg _)
    omega
  · have hmul : (t.exec.currentTickCount : ℤ) * 1 ≤ t.exec.currentTickCount * options.dt :=
      Int.mul_le_mul_of_nonneg_left (by omega) (Int.natCast_nonneg _)
    omega

theorem step (hv : ValidSizes options.wheelSize) (h : Sound options t) (hs : Step t e t') :
    Sound options t' := by
  cases hs with
  | start hinit hnow =>
    obtain ⟨-, hc⟩ : t.exec.state = .init ∧ t.exec.currentTickCount = 0 := by
      rcases h.clock with hc | hc
      · exact hc
      · simp [hc.1] at hinit
    exact ⟨h.options_eq, h.dtCount_eq, h.aligned, h.scales,
      Or.inr ⟨rfl, hnow, by simpa [hc] using hnow⟩⟩
  | @executeAt tp entry exec he =>
    rcases executeAt_appends he with ⟨-, -, rfl⟩ | ⟨-, -, -, place, hf⟩
    · exact ⟨h.options_eq, h.dtCount_eq, h.aligned, h.scales, h.clock⟩
    · obtain ⟨hd, hp⟩ := executeAt_digits he
      have hrest := hf.rest
      refine ⟨?_, ?_, ?_, ?_, ?_⟩
      · rw [hrest]; exact h.options_eq
      · rw [hrest]; exact h.dtCount_eq
      · have ha := h.aligned.congr hd hp
        rw [hrest]; exact ha
      · exact (put_scales hf.filed).trans h.scales
      · rw [hrest]; exact h.clock
  | @tick taskList exec hstart hpoint ht =>
    obtain ⟨hticks, hrest⟩ := ticks_of_takeTick ht
    obtain ⟨-, -, hfirst⟩ : t.exec.state = .start ∧ IsTimePoint t.lastLoopTimePoint ∧
        IsTimePoint (t.lastLoopTimePoint - t.exec.currentTickCount * options.dt) := by
      rcases h.clock with hc | hc
      · simp [hc.1] at hstart
      · exact hc
    have ha := h.aligned.tick hv hticks
    have hs := hticks.scales.trans h.scales
    have hsame : t.lastLoopTimePoint + options.dt - (t.exec.currentTickCount + 1 : ℕ) * options.dt =
        t.lastLoopTimePoint - t.exec.currentTickCount * options.dt := by
      push_cast
      ring
    rw [hrest]
    refine ⟨h.options_eq, h.dtCount_eq, ha, hs, Or.inr ⟨hstart, hpoint, ?_⟩⟩
    simp only [TimeWheelExecutor.countTick, h.options_eq, hsame]
    exact hfirst

theorem run (hv : ValidSizes options.wheelSize) (h : Sound options t) {es : List Event}
    (hr : run Timer.step t es = some t') : Sound options t' :=
  run_invariant (fun _ _ _ hs he => hs.step hv (step_cases he)) h hr

end Sound

end Timer

end Ados.TimeWheel
