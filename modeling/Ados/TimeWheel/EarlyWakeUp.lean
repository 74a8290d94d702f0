import Ados.TimeWheel.IndexSafety
import Ados.TimeWheel.LoopInvariant

/-!
# Waking up before time

The sleep before a tick is cut into slices of `kMaxSleepDt`, and the loop over the slices ends when
`state_` is `kShutdown`, also with slices left. The tick that follows is processed all the same, and
its tasks are run before the time that the tick stands for. A tick that the outer handler has left
uncounted puts the later ones behind their times.

## Main definitions

* `TimerLoop.InTick`, `TimerLoop.OnTime`: a tick is being processed, at its wake-up time
* `TimerLoop.Punctual`: a step that neither cuts a sleep short nor leaves a tick uncounted
* `TimerLoop.Clockwork`, `TimerLoop.Timed`: the time slept and the time left

## Main results

* `TimerLoop.ticks_on_time`: ticks are on time as long as the steps are punctual
* `TimerLoop.unslept_eq_zero`: with a `dt` of one slice no sleep is cut short
-/

namespace Ados.TimeWheel

open Transition

/-- What a slice that has been slept leaves of the sleep. -/
def Pc.unslept : Pc → ℤ
  | .woken realDt => realDt
  | _ => 0

theorem wrap64_add (n k : ℤ) : wrap64 ((wrap64 n : ℤ) + k) = wrap64 (n + k) := by
  unfold wrap64
  omega

namespace TimerLoop

variable {options : Options} {s s' u : TimerLoop} {a : Act} {es : List Act}

/-- The loop is about to tick wheels that are there, or has taken the list of a tick. -/
def InTick (s : TimerLoop) : Prop :=
  s.pc = .lock ∧ s.exec.timingWheelVec ≠ [] ∨ s.pc.InWindow

/-- A tick is processed at its time, which is `dt` after that of the tick before. -/
def OnTime (s : TimerLoop) : Prop :=
  s.InTick → getTimestampNs s.lastLoopTimePoint =
    wrap64 (s.exec.startTimePoint + (s.exec.currentTickCount + 1) * s.exec.options.dt)

/-- The step does not end the sleep before a tick with slices left, unless there is nothing to tick,
and does not go on after a tick that is not counted. -/
def Punctual (s : TimerLoop) : Act → Prop
  | .loop => s.pc.unslept = 0 ∨ s.exec.state ≠ .shutdown ∨ s.exec.timingWheelVec = []
  | .logReturns => s.pc ≠ .outerCatch
  | _ => True

instance (s : TimerLoop) : ∀ a, Decidable (s.Punctual a)
  | .loop => inferInstanceAs (Decidable (_ ∨ _ ∨ _))
  | .logReturns => inferInstanceAs (Decidable (_ ≠ _))
  | .clock _ | .taskReturns | .taskThrows | .logThrows | .executeAt _ | .initializeAgain | .start
  | .shutdown | .join => isTrue trivial

/-- The time slept and the time left to sleep end at the next tick. -/
structure Clockwork (options : Options) (s : TimerLoop) : Prop where
  fresh : s.pc = .noThread ∨ s.pc = .entered → s.exec.currentTickCount = 0
  point : s.pc.BetweenTicks ∨ s.pc.InWindow → ∃ now, s.exec.startTimePoint = getTimestampNs now ∧
    s.lastLoopTimePoint + s.pc.remaining options.dt =
      now + (s.exec.currentTickCount + 1) * options.dt
  left : PartOf options.dt (s.pc.remaining options.dt)

/-- There is nothing to tick any more, or the clock runs. -/
structure Timed (options : Options) (s : TimerLoop) : Prop where
  configured : Configured options s
  clock : s.exec.timingWheelVec = [] ∧ ¬ s.pc.InWindow ∨ Clockwork options s

theorem timed_initial : Timed options (initial options) := by
  refine ⟨configured_initial, Or.inr ⟨fun _ => rfl, ?_, partOf_zero _⟩⟩
  simp [initial, Pc.BetweenTicks, Pc.InWindow]

/-- A move of the program counter that keeps what is left to sleep. -/
theorem Clockwork.move (h : Clockwork options s) {pc : Pc}
    (hfresh : pc ≠ .noThread ∧ pc ≠ .entered) (hpc : s.pc.BetweenTicks ∨ s.pc.InWindow)
    (hleft : pc.remaining options.dt = s.pc.remaining options.dt) :
    Clockwork options { s with pc := pc } := by
  refine ⟨fun h => absurd h (by simp [hfresh]), fun _ => ?_, ?_⟩
  · simp only [hleft]
    exact h.point hpc
  · simp only [hleft]
    exact h.left

/-- A tick that is counted leaves a whole `dt` to sleep. -/
theorem Clockwork.counted (h : Clockwork options s) (hpc : s.pc = .lock ∨ s.pc = .running [])
    {exec : TimeWheelExecutor Call} (hstart : exec.startTimePoint = s.exec.startTimePoint)
    (hcount : exec.currentTickCount = s.exec.currentTickCount) :
    Clockwork options { s with exec := exec.countTick, pc := .head } := by
  refine ⟨by simp, fun _ => ?_, partOf_self _⟩
  have hzero : s.pc.remaining options.dt = 0 := by
    rcases hpc with hpc | hpc <;> simp [hpc, Pc.remaining]
  have hphase : s.pc.BetweenTicks ∨ s.pc.InWindow := by
    rcases hpc with hpc | hpc <;> simp [hpc, Pc.BetweenTicks, Pc.InWindow]
  obtain ⟨now, hnow, hpoint⟩ := h.point hphase
  refine ⟨now, hstart.trans hnow, ?_⟩
  rw [hzero] at hpoint
  simp only [TimeWheelExecutor.countTick, Pc.remaining, hcount]
  rw [Nat.cast_add_one, add_one_mul (s.exec.currentTickCount + 1 : ℤ)]
  omega

theorem Clockwork.step (h : Clockwork options s) (hc : Configured options s) (hq : s.Punctual a)
    (hs : Step s a s') :
    s'.exec.timingWheelVec = [] ∧ ¬ s'.pc.InWindow ∨ Clockwork options s' := by
  cases hs with
  | exit _ _ | logThrows _ =>
    exact Or.inr ⟨by simp, by simp [Pc.BetweenTicks, Pc.InWindow], partOf_zero _⟩
  | enter hpc _ =>
    exact Or.inr (h.move (by simp) (by simp [hpc, Pc.BetweenTicks])
      (by simp [hpc, Pc.remaining, hc.options_eq]))
  | @slice realDt hpc _ =>
    have hsum := sleepSlice_add s.exec.options.dt realDt
    have hleft := h.left
    obtain ⟨now, hnow, hpoint⟩ := h.point (by simp [hpc, Pc.BetweenTicks])
    simp only [hpc, Pc.remaining] at hleft hpoint
    refine Or.inr ⟨by simp, fun _ => ⟨now, hnow, ?_⟩, hleft.sleepSlice _⟩
    simp only [Pc.remaining]
    omega
  | again hpc _ _ =>
    exact Or.inr (h.move (by simp) (by simp [hpc, Pc.BetweenTicks]) (by simp [hpc, Pc.remaining]))
  | @wake realDt hpc hdone =>
    -- a sleep that is cut short finds nothing to tick
    simp only [Punctual, hpc, Pc.unslept] at hq
    by_cases hnil : s.exec.timingWheelVec = []
    · exact Or.inl ⟨hnil, id⟩
    · have hzero : realDt = 0 := by tauto
      exact Or.inr (h.move (by simp) (by simp [hpc, Pc.BetweenTicks])
        (by simp [hpc, Pc.remaining, hzero]))
  | @empty exec hpc htake =>
    obtain ⟨-, hrest⟩ := ticks_of_takeTick htake
    exact Or.inr (h.counted (Or.inl hpc) (by rw [hrest]) (by rw [hrest]))
  | @taken taskList exec hpc _ htake =>
    obtain ⟨-, hrest⟩ := ticks_of_takeTick htake
    have hmove : Clockwork options { s with pc := .running taskList } :=
      h.move (by simp) (by simp [hpc, Pc.BetweenTicks]) (by simp [hpc, Pc.remaining])
    rw [hrest]
    exact Or.inr ⟨hmove.fresh, hmove.point, hmove.left⟩
  | count hpc => exact Or.inr (h.counted (Or.inr hpc) rfl rfl)
  | @begins e rest hpc =>
    have hmove : Clockwork options { s with pc := .body rest } :=
      h.move (by simp) (by simp [hpc, Pc.InWindow]) (by simp [hpc, Pc.remaining])
    exact Or.inr ⟨hmove.fresh, hmove.point, hmove.left⟩
  | @clock now hpc _ =>
    refine Or.inr ⟨by simp, fun _ => ⟨now, rfl, ?_⟩, partOf_self _⟩
    simp [Pc.remaining, h.fresh (Or.inr hpc)]
  | returns hpc | throws hpc | logged hpc =>
    exact Or.inr (h.move (by simp) (by simp [hpc, Pc.InWindow]) (by simp [hpc, Pc.remaining]))
  | outerLogged hpc => exact absurd hpc hq
  | executeAt hexec =>
    rw [executeAt_rest hexec]
    exact Or.inr ⟨h.fresh, h.point, h.left⟩
  | initializeAgain | startRejected _ | shutdownAgain _ | shutdown _ _ =>
    exact Or.inr ⟨h.fresh, h.point, h.left⟩
  | start _ hpc =>
    refine Or.inr ⟨fun _ => h.fresh (Or.inl hpc), ?_, partOf_zero _⟩
    simp [Pc.BetweenTicks, Pc.InWindow]
  | join _ _ => exact Or.inl ⟨rfl, id⟩

/-- Cleared wheels are not ticked. -/
theorem Step.cleared (hs : Step s a s')
    (h : s.exec.timingWheelVec = [] ∧ ¬ s.pc.InWindow) :
    s'.exec.timingWheelVec = [] ∧ ¬ s'.pc.InWindow := by
  obtain ⟨hnil, hwindow⟩ := h
  refine ⟨hs.eq_nil hnil, ?_⟩
  cases hs with
  | taken _ _ htake => exact absurd hnil (takeTick_ne_nil htake)
  | begins hpc | returns hpc | throws hpc | logged hpc => simp [hpc, Pc.InWindow] at hwindow
  | executeAt _ | initializeAgain | startRejected _ | shutdownAgain _ | shutdown _ _ =>
    exact hwindow
  | _ => exact id

theorem Timed.step (h : Timed options s) (hq : s.Punctual a) (hs : Step s a s') :
    Timed options s' := by
  refine ⟨h.configured.step hs, ?_⟩
  rcases h.clock with hcleared | hclock
  · exact Or.inl (hs.cleared hcleared)
  · exact hclock.step h.configured hq hs

theorem Timed.onTime (h : Timed options s) : OnTime s := by
  intro htick
  have hpc : s.pc.BetweenTicks ∨ s.pc.InWindow := by
    rcases htick with ⟨hpc, -⟩ | hwindow
    · exact Or.inl (by simp [hpc, Pc.BetweenTicks])
    · exact Or.inr hwindow
  have hleft : s.pc.remaining options.dt = 0 := by
    rcases htick with ⟨hpc, -⟩ | hwindow
    · simp [hpc, Pc.remaining]
    · cases hp : s.pc <;> simp [hp, Pc.InWindow, Pc.remaining] at hwindow ⊢
  have hclock : Clockwork options s := by
    refine h.clock.resolve_left fun hcleared => ?_
    rcases htick with ⟨-, hne⟩ | hwindow
    · exact hne hcleared.1
    · exact hcleared.2 hwindow
  obtain ⟨now, hnow, hpoint⟩ := hclock.point hpc
  rw [hleft, add_zero] at hpoint
  rw [h.configured.options_eq, hnow, hpoint, getTimestampNs, getTimestampNs, wrap64_add]

/-- A step out of a slice that is followed by a tick on time leaves nothing unslept: the wake-up is
early by what is unslept, which is less than the range of the clock. -/
theorem Timed.punctual (h : Timed options s) (houter : s.pc ≠ .outerCatch) (hs : Step s a s')
    (htime : OnTime s') : s.Punctual a := by
  cases a with
  | logReturns => exact houter
  | loop =>
    by_contra hearly
    simp only [Punctual, not_or, not_not] at hearly
    obtain ⟨hleft, hstate, hne⟩ := hearly
    obtain ⟨realDt, hpc⟩ : ∃ realDt, s.pc = .woken realDt := by
      cases hp : s.pc <;> simp [hp, Pc.unslept] at hleft
      exact ⟨_, rfl⟩
    simp only [hpc, Pc.unslept] at hleft
    obtain rfl : s' = { s with pc := .lock } := by
      cases hs with
      | again _ hgo _ => exact absurd hstate hgo
      | wake _ _ => rfl
      | exit h _ | enter h _ | slice h _ | empty h _ | taken h _ _ | count h | begins h =>
        exact absurd (hpc.symm.trans h) (by simp)
    have hclock := h.clock.resolve_left fun hcleared => hne hcleared.1
    obtain ⟨now, hnow, hpoint⟩ := hclock.point (by simp [hpc, Pc.BetweenTicks])
    have hpart := hclock.left
    simp only [hpc, Pc.remaining] at hpoint hpart
    have heq := htime (Or.inl ⟨rfl, hne⟩)
    simp only [hnow, h.configured.options_eq, getTimestampNs, wrap64_add, ← hpoint] at heq
    have hrange := options.dt_range
    unfold wrap64 at heq
    unfold PartOf at hpart
    omega
  | _ => trivial

/-- Only a throw of the inner handler's logger leads to the outer handler. -/
theorem Step.ne_outerCatch (hs : Step s a s') (h : s.pc ≠ .outerCatch) (ha : a ≠ .logThrows) :
    s'.pc ≠ .outerCatch := by
  cases hs with
  | logThrows _ => exact absurd rfl ha
  | executeAt _ | initializeAgain | startRejected _ | shutdownAgain _ | shutdown _ _ => exact h
  | _ => simp

/-- **Ticks are on time as long as no sleep is cut short.** If no step of a run ends a sleep with
slices left or goes on after an uncounted tick, every tick is processed at its time; and conversely
as long as the logger does not throw. -/
theorem ticks_on_time (hr : run step (initial options) es = some u) :
    (AllSteps step Punctual (initial options) es → AllStates step OnTime (initial options) es) ∧
      (.logThrows ∉ es → AllStates step OnTime (initial options) es →
        AllSteps step Punctual (initial options) es) := by
  refine ⟨fun hq => ?_, fun hlog => ?_⟩
  · have h := allStates_of_allSteps (fun s a t h hq hs => Timed.step h hq (step_cases hs))
      (timed_initial : Timed options (initial options)) hq
    exact h.imp fun _ h => h.onTime
  · refine allSteps_of_allStates (J := fun s => Timed options s ∧ s.pc ≠ .outerCatch) ?_ ?_
      ⟨timed_initial, by simp [initial]⟩ hr
    · rintro s a t ha ⟨h, houter⟩ hq hs
      exact ⟨h.step hq (step_cases hs),
        (step_cases hs).ne_outerCatch houter fun heq => hlog (heq ▸ ha)⟩
    · rintro s a t - ⟨h, houter⟩ hs htime
      exact h.punctual houter (step_cases hs) htime

/-- A sleep of two slices that `Shutdown` does not cut short. -/
theorem ticks_on_time_two_seconds :
    ∃ u, run step (initial { dt := 2 * kMaxSleepDt, wheelSize := [2] }) [.start, .clock 0,
        .executeAt 0, .loop, .loop, .loop, .loop, .shutdown, .loop, .loop, .loop] = some u ∧
      u.InTick ∧ OnTime u := by
  have h : ((run step (initial { dt := 2 * kMaxSleepDt, wheelSize := [2] }) [.start, .clock 0,
      .executeAt 0, .loop, .loop, .loop, .loop, .shutdown, .loop, .loop, .loop]).map fun u =>
        decide u.pc.InWindow) = some true := by
    decide +kernel
  obtain ⟨u, hu, hwindow⟩ := Option.map_eq_some_iff.mp h
  refine ⟨u, hu, Or.inr (of_decide_eq_true hwindow), ?_⟩
  exact ((ticks_on_time hu).1 (by decide +kernel)).last hu

/-- `Shutdown` during the first of two slices: the first tick runs its task a second before its
time. -/
theorem tick_early :
    ∃ u, run step (initial { dt := 2 * kMaxSleepDt, wheelSize := [2] }) [.start, .clock 0,
        .executeAt 0, .loop, .loop, .shutdown, .loop, .loop, .loop] = some u ∧
      u.ran.map (fun r => (r.tick, r.wakeUp)) = [(0, 1000000000)] ∧
      u.exec.startTimePoint + (0 + 1) * u.exec.options.dt = 2000000000 ∧ u.InTick ∧ ¬ OnTime u := by
  have h : ((run step (initial { dt := 2 * kMaxSleepDt, wheelSize := [2] }) [.start, .clock 0,
      .executeAt 0, .loop, .loop, .shutdown, .loop, .loop, .loop]).map fun u =>
        ((decide u.pc.InWindow, u.ran.map fun r => (r.tick, r.wakeUp)),
          (u.lastLoopTimePoint, u.exec.startTimePoint), u.exec.currentTickCount,
            u.exec.options.dt)) =
      some ((true, [(0, 1000000000)]), (1000000000, 0), 0, 2000000000) := by
    decide +kernel
  obtain ⟨u, hu, hval⟩ := Option.map_eq_some_iff.mp h
  simp only [Prod.mk.injEq, decide_eq_true_eq] at hval
  obtain ⟨⟨hwindow, hran⟩, ⟨hlast, hstart⟩, hcount, hdt⟩ := hval
  refine ⟨u, hu, hran, by rw [hstart, hdt]; rfl, Or.inr hwindow, fun htime => ?_⟩
  have heq := htime (Or.inr hwindow)
  rw [hlast, hstart, hcount, hdt] at heq
  exact absurd heq (by decide +kernel)

/-! ## One slice -/

/-- The whole of `dt` is slept in one slice. -/
structure OneSlice (options : Options) (s : TimerLoop) : Prop where
  configured : Configured options s
  sleep : ∀ realDt, s.pc = .sleep realDt → realDt = options.dt
  woken : s.pc.unslept = 0

theorem sleepSlice_of_le {dt : ℤ} (hle : dt ≤ kMaxSleepDt) : sleepSlice dt dt = (dt, 0) := by
  simp [sleepSlice, Int.not_lt.mpr hle]

theorem OneSlice.step (hle : options.dt ≤ kMaxSleepDt) (h : OneSlice options s)
    (hs : Step s a s') : OneSlice options s' := by
  refine ⟨h.configured.step hs, ?_, ?_⟩
  · cases hs with
    | enter _ _ =>
      rintro realDt hpc
      cases hpc
      rw [h.configured.options_eq]
    | @again realDt hpc _ hne =>
      have hzero := h.woken
      rw [hpc] at hzero
      exact absurd hzero hne
    | executeAt _ | initializeAgain | startRejected _ | shutdownAgain _ | shutdown _ _ =>
      exact h.sleep
    | _ => simp
  · cases hs with
    | @slice realDt hpc _ =>
      obtain rfl := h.sleep realDt hpc
      rw [h.configured.options_eq, sleepSlice_of_le hle]
      rfl
    | executeAt _ | initializeAgain | startRejected _ | shutdownAgain _ | shutdown _ _ =>
      exact h.woken
    | _ => rfl

/-- **A `dt` of one slice is never cut short.** -/
theorem unslept_eq_zero (hle : options.dt ≤ kMaxSleepDt)
    (hr : run step (initial options) es = some u) : u.pc.unslept = 0 := by
  have h : OneSlice options u := by
    refine run_invariant (fun s a t h hs => h.step hle (step_cases hs)) ?_ hr
    exact ⟨configured_initial, by simp [initial], rfl⟩
  exact h.woken

end TimerLoop

end Ados.TimeWheel
