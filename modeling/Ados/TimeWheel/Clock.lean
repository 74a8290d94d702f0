import Ados.Common.Timestamps
import Ados.TimeWheel.LoopInvariant

/-!
# The clock of the executor

`Now` multiplies the tick counter by `dt`, adds the start time, and reads the sum as a time point.
All three steps are in unsigned 64-bit arithmetic, and `ExecuteAt` undoes the last two: a deadline
given relative to `Now()` is counted from the current tick whatever the start time is.

## Main definitions

* `TimeWheelExecutor.now`: `Now`
* `TimerLoop.InService`: what holds of a loop that is not told to shut down

## Main results

* `TimeWheelExecutor.virtualTp_now`: `ExecuteAt` counts `Now() + d` from the current tick
* `TimerLoop.inService_run`: every run without `Shutdown` is in service
* `TimerLoop.now_run`: `Now` is the first reading of the clock and as many times `dt` as there were
  ticks, at most `dt` before the wake-ups of the loop, and it never goes back
-/

namespace Ados.TimeWheel

open Transition

theorem wrap64_natCast (n : ℕ) : wrap64 n = n % 2 ^ 64 := by
  unfold wrap64
  omega

theorem wrap64_wrap64_add (m n : ℤ) : wrap64 (wrap64 m + n) = wrap64 (m + n) := by
  unfold wrap64
  omega

/-- A factor may be taken modulo `2 ^ 64`. -/
theorem wrap64_add_mul_wrap64 (m c n : ℤ) : wrap64 (m + c * wrap64 n) = wrap64 (m + c * n) := by
  have hcast : (wrap64 n : ℤ) = n % 2 ^ 64 := by
    unfold wrap64
    omega
  unfold wrap64 at *
  rw [hcast, Int.add_emod m, Int.mul_emod c (n % 2 ^ 64), Int.emod_emod, ← Int.mul_emod,
    ← Int.add_emod]

/-- Reading an unsigned value as a signed one and back changes it by a multiple of `2 ^ 64`. -/
theorem wrap64_signed64_add (n : ℕ) (d : ℤ) : wrap64 (signed64 n + d) = wrap64 (n + d) := by
  unfold signed64 wrap64
  omega

/-- Every unsigned value is the nanosecond timestamp of a time point. -/
theorem getTimePointFromTimestampNs_eq (x : ℕ) :
    getTimePointFromTimestampNs x = some (signed64 x) := by
  have hpoint : IsTimePoint (signed64 x * (1 : ℕ)) := by
    unfold IsTimePoint signed64
    omega
  rw [getTimePointFromTimestampNs, timePoint, if_pos hpoint, Nat.cast_one, mul_one]

namespace TimeWheelExecutor

variable {Task : Type}

/-- `Now`. -/
def now (s : TimeWheelExecutor Task) : Option ℤ :=
  getTimePointFromTimestampNs ((s.currentTickCount * s.dtCount + s.startTimePoint) % 2 ^ 64)

variable {s : TimeWheelExecutor Task} {tp : ℤ}

/-- Counted from a start time that is a time point, `Now` is exact as long as it is one. -/
theorem now_eq {first : ℤ} (hstart : s.startTimePoint = getTimestampNs first)
    {dt : ℤ} (hdt : s.dtCount = wrap64 dt)
    (hpoint : IsTimePoint (first + s.currentTickCount * dt)) :
    s.now = some (first + s.currentTickCount * dt) := by
  have hsum : (s.currentTickCount * s.dtCount + s.startTimePoint) % 2 ^ 64 =
      wrap64 (first + s.currentTickCount * dt) := by
    rw [hstart, hdt, ← wrap64_natCast, Nat.cast_add, add_comm, getTimestampNs, wrap64_wrap64_add,
      Nat.cast_mul, wrap64_add_mul_wrap64]
  rw [now, getTimePointFromTimestampNs_eq, hsum, signed64_wrap64 hpoint]

/-- **A deadline relative to `Now()` is counted from the current tick.** -/
theorem virtualTp_now (hnow : s.now = some tp) {d : ℕ}
    (hlt : s.currentTickCount * s.dtCount + d < 2 ^ 64) :
    s.virtualTp (tp + d) = s.currentTickCount * s.dtCount + d := by
  rw [now, getTimePointFromTimestampNs_eq, Option.some_inj] at hnow
  rw [← hnow, virtualTp, getTimestampNs, wrap64_signed64_add, sub_eq_add_neg, wrap64_wrap64_add,
    ← wrap64_natCast, add_assoc, wrap64_wrap64_add]
  have hcancel : ((s.currentTickCount * s.dtCount + s.startTimePoint : ℕ) : ℤ) +
      (d + -s.startTimePoint) = (s.currentTickCount * s.dtCount + d : ℕ) := by
    push_cast
    omega
  rw [hcancel, wrap64_natCast, Nat.mod_eq_of_lt hlt]

/-- The tick of such a deadline. -/
theorem virtualTp_now_div (hnow : s.now = some tp) {d : ℕ}
    (hlt : s.currentTickCount * s.dtCount + d < 2 ^ 64) (hdt : 0 < s.dtCount) :
    s.virtualTp (tp + d) / s.dtCount = s.currentTickCount + d / s.dtCount := by
  rw [virtualTp_now hnow hlt, Nat.add_comm, Nat.add_mul_div_right _ _ hdt, Nat.add_comm]

end TimeWheelExecutor

namespace TimerLoop

variable {options : Options} {s s' u : TimerLoop} {a : Act} {es fs : List Act}

/-- What holds of a loop that is not told to shut down. -/
structure InService (options : Options) (s : TimerLoop) : Prop where
  sound : Sound options s
  accounted : Accounted s
  point : IsTimePoint s.lastLoopTimePoint
  remaining : PartOf options.dt (s.pc.remaining options.dt)
  clock : Unstarted s ∨ ∃ now, Clocked options now s

theorem inService_initial (hv : ValidSizes options.wheelSize) :
    InService options (initial options) where
  sound := .initial hv
  accounted := .initial
  point := by
    show IsTimePoint 0
    decide
  remaining := partOf_zero _
  clock := .inl unstarted_initial

/-- The loop moves its last wake-up to time points alone, and sleeps no longer than `dt`. -/
theorem Step.point_remaining (hs : Step s a s') (hoptions : s.exec.options = options)
    (hpoint : IsTimePoint s.lastLoopTimePoint)
    (hleft : PartOf options.dt (s.pc.remaining options.dt)) :
    IsTimePoint s'.lastLoopTimePoint ∧ PartOf options.dt (s'.pc.remaining options.dt) := by
  cases hs with
  | @slice realDt hpc hend =>
    simp only [hpc, Pc.remaining] at hleft
    exact ⟨hend, hleft.sleepSlice _⟩
  | clock _ hnow => exact ⟨hnow, partOf_self _⟩
  | enter _ _ =>
    simp only [Pc.remaining, hoptions]
    exact ⟨hpoint, partOf_self _⟩
  | again hpc _ _ =>
    simp only [hpc, Pc.remaining] at hleft ⊢
    exact ⟨hpoint, hleft⟩
  | empty _ _ | count _ | outerLogged _ => exact ⟨hpoint, partOf_self _⟩
  | exit _ _ | wake _ _ | taken _ _ _ | begins _ | returns _ | throws _ | logged _ | logThrows _
  | start _ _ | join _ _ =>
    exact ⟨hpoint, partOf_zero _⟩
  | executeAt _ | initializeAgain | startRejected _ | shutdownAgain _ | shutdown _ _ =>
    exact ⟨hpoint, hleft⟩

theorem InService.step (hv : ValidSizes options.wheelSize) (h : InService options s)
    (hs : Step s a s') (hlog : a ≠ .logThrows) (hshut : a ≠ .shutdown) :
    InService options s' := by
  obtain ⟨hpoint, hleft⟩ := hs.point_remaining h.sound.options_eq h.point h.remaining
  refine ⟨hs.invariant (fun _ _ hsound he => hsound.effect hv he) h.sound hlog,
    hs.invariant (fun _ _ hacc he => hacc.effect he) h.accounted hlog, hpoint, hleft, ?_⟩
  rcases h.clock with hclock | ⟨now, hclock⟩
  · exact hclock.step hs hshut
  · exact .inr ⟨now, hclock.step h.sound hs hlog hshut⟩

/-- **A run without `Shutdown` stays in service.** -/
theorem inService_run (hv : ValidSizes options.wheelSize)
    (hr : run step (initial options) es = some s) (hlog : .logThrows ∉ es)
    (hshut : .shutdown ∉ es) : InService options s := by
  refine run_invariant_of_mem ?_ (inService_initial hv) hr
  intro s a u h ha hu
  exact h.step hv (step_cases hu) (fun heq => hlog (heq ▸ ha)) fun heq => hshut (heq ▸ ha)

/-- The counter of ticks never goes down. -/
theorem Effect.count_le (he : Effect s s') :
    s.exec.currentTickCount ≤ s'.exec.currentTickCount := by
  cases he with
  | quiet hq => exact hq.count.ge
  | taken _ htake =>
    rw [(ticks_of_takeTick htake).2]
  | count _ => exact Nat.le_succ _
  | begins _ | join _ => exact Nat.le_refl _
  | executeAt hexec =>
    rw [executeAt_rest hexec]

/-- `Now` in service: the counter times `dt` after the first reading of the clock. -/
theorem InService.now_eq (h : InService options s) {first : ℤ} (hclock : Clocked options first s) :
    s.exec.now = some (first + s.exec.currentTickCount * options.dt) := by
  have hwake := hclock.wakeUp
  have hleft := h.remaining
  have hlast := h.point
  have hfirst := hclock.point
  rw [add_one_mul] at hwake
  apply TimeWheelExecutor.now_eq hclock.start h.sound.dtCount_eq
  have hsign : 0 ≤ options.dt ∧ 0 ≤ s.exec.currentTickCount * options.dt ∨
      options.dt ≤ 0 ∧ s.exec.currentTickCount * options.dt ≤ 0 := by
    rcases Int.le_total 0 options.dt with hdt | hdt
    · exact Or.inl ⟨hdt, Int.mul_nonneg (Int.natCast_nonneg _) hdt⟩
    · exact Or.inr ⟨hdt, Int.mul_nonpos_of_nonneg_of_nonpos (Int.natCast_nonneg _) hdt⟩
  generalize (s.exec.currentTickCount : ℤ) * options.dt = n at *
  unfold IsTimePoint PartOf at *
  omega

theorem count_le_run (hr : run step s es = some u) (hlog : .logThrows ∉ es) :
    s.exec.currentTickCount ≤ u.exec.currentTickCount :=
  run_effects (P := fun t => s.exec.currentTickCount ≤ t.exec.currentTickCount)
    (fun _ _ hle he => hle.trans he.count_le) (Nat.le_refl _) hr hlog

/-- What `Now` reads, with `first` the first reading of the clock. -/
structure Reads (options : Options) (first : ℤ) (s : TimerLoop) (now : ℤ) : Prop where
  eq : s.exec.now = some now
  ticks : now = first + s.exec.currentTickCount * options.dt
  le : now ≤ s.lastLoopTimePoint
  ge : s.lastLoopTimePoint ≤ now + options.dt
  window : s.pc.InWindow → s.lastLoopTimePoint = now + options.dt

theorem InService.reads (hdt : 0 ≤ options.dt) (h : InService options s) {first : ℤ}
    (hclock : Clocked options first s) :
    Reads options first s (first + s.exec.currentTickCount * options.dt) := by
  have hwake := hclock.wakeUp
  have hleft := h.remaining
  rw [add_one_mul] at hwake
  unfold PartOf at hleft
  refine ⟨h.now_eq hclock, rfl, by omega, by omega, fun hwindow => ?_⟩
  have hzero : s.pc.remaining options.dt = 0 := by
    cases hpc : s.pc <;> simp only [hpc, Pc.InWindow] at hwindow <;> rfl
  omega

/-- **`Now` is exact and never goes back.** In every run without `Shutdown` and without a logging
call that throws, from the first reading of the clock on, `Now` is that reading and `dt`, which is
not negative, for every tick counted. It is `dt` before the wake-up of a tick while the tasks of the
tick run, at most that much before the last wake-up otherwise, and never smaller later in the run.
-/
theorem now_run (hv : ValidSizes options.wheelSize) (hdt : 0 ≤ options.dt)
    (hr : run step (initial options) es = some s) (hread : s.pc ≠ .noThread ∧ s.pc ≠ .entered)
    (hcont : run step s fs = some u) (hlog : .logThrows ∉ es ++ fs) (hshut : .shutdown ∉ es ++ fs) :
    ∃ first, IsTimePoint first ∧ s.exec.startTimePoint = getTimestampNs first ∧
      ∃ now now', Reads options first s now ∧ Reads options first u now' ∧ now ≤ now' := by
  obtain ⟨hlog₁, hlog₂⟩ : Act.logThrows ∉ es ∧ Act.logThrows ∉ fs := by simpa using hlog
  obtain ⟨hshut₁, hshut₂⟩ : Act.shutdown ∉ es ∧ Act.shutdown ∉ fs := by simpa using hshut
  have h := inService_run hv hr hlog₁ hshut₁
  have hu := inService_run hv (run_append_eq_some.mpr ⟨s, hr, hcont⟩) hlog hshut
  rcases h.clock with hclock | ⟨first, hclock⟩
  · exact absurd hclock.pc (by simp [hread])
  · have hclock' := hclock.run hv h.sound hcont hlog₂ hshut₂
    refine ⟨first, hclock.point, hclock.start, _, _, h.reads hdt hclock,
      hu.reads hdt hclock', ?_⟩
    have hle := Int.mul_le_mul_of_nonneg_right
      (Int.ofNat_le.mpr (count_le_run hcont hlog₂)) hdt
    omega

/-- A clock read at 7 ns, before and after a tick of 1 ns. -/
theorem now_run_tick :
    ∃ s u, run step (initial { dt := 1, wheelSize := [4] }) [.start, .clock 7] = some s ∧
      run step s [.loop, .loop, .loop, .loop] = some u ∧
      ∃ first, IsTimePoint first ∧ s.exec.startTimePoint = getTimestampNs first ∧
        ∃ now now', Reads { dt := 1, wheelSize := [4] } first s now ∧
          Reads { dt := 1, wheelSize := [4] } first u now' ∧ now ≤ now' := by
  have h : (run step (initial { dt := 1, wheelSize := [4] }) [.start, .clock 7]).bind
      (fun s => (run step s [.loop, .loop, .loop, .loop]).map fun u => (s.pc, u.pc)) =
        some (.head, .head) := by
    decide +kernel
  obtain ⟨s, hr, h⟩ := Option.bind_eq_some_iff.mp h
  obtain ⟨u, hcont, h⟩ := Option.map_eq_some_iff.mp h
  obtain ⟨hpc, -⟩ := Prod.mk.inj h
  exact ⟨s, u, hr, hcont, now_run (.single (by decide)) (by decide) hr (by simp [hpc]) hcont
    (by decide) (by decide)⟩

end TimerLoop

end Ados.TimeWheel
