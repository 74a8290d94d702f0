import Ados.TimeWheel.Conservation
import Ados.TimeWheel.Schedule
import Ados.TimeWheel.TimerLoop

/-!
# What every run of the timer loop keeps

As long as the logger does not throw, the wheels stand where `ticks` ticks bring them, until
`Shutdown` clears them; every task is in one place at most; and as long as `Shutdown` is not called,
the wake-up times are the multiples of `dt` after the first reading of the clock.

## Main definitions

* `TimerLoop.Sound`: the wheels are cleared, or are an odometer after `ticks` ticks
* `TimerLoop.known`, `TimerLoop.Accounted`: the tasks run, taken and held, with distinct numbers
* `TimerLoop.history`: the tasks run and taken, with their ticks
* `TimerLoop.Clocked`: `last_loop_time_point` at each point of the loop

## Main results

* `TimerLoop.sound_run`, `TimerLoop.accounted_run`: for runs whose logger does not throw
* `TimerLoop.clocked_run`: for runs without `Shutdown` as well
-/

namespace Ados.TimeWheel

open Transition

namespace TimerLoop

variable {options : Options} {s s' u : TimerLoop} {es : List Act}

/-! ## The wheels -/

/-- The wheels have been cleared, or stand where `ticks` ticks bring them. -/
structure Sound (options : Options) (s : TimerLoop) : Prop where
  options_eq : s.exec.options = options
  dtCount_eq : s.exec.dtCount = options.dtCount
  wheels : s.exec.timingWheelVec = [] ∧ ¬ s.pc.InWindow ∨
    Aligned options.wheelSize s.ticks s.exec.timingWheelVec s.exec.timingTaskMap

theorem Sound.initial (hv : ValidSizes options.wheelSize) : Sound options (initial options) :=
  ⟨rfl, rfl, Or.inr (Aligned.initialized hv)⟩

/-- When `Shutdown` clears the wheels, no list is taken. -/
theorem not_window_of_join (hpc : s.pc = .noThread ∨ s.pc = .exited) :
    ¬ s.pc.InWindow ∧ s.pc.rest = [] := by
  rcases hpc with hpc | hpc <;> simp [hpc, Pc.InWindow, Pc.rest]

/-- Cleared wheels have nothing to tick. -/
theorem takeTick_ne_nil {exec exec' : TimeWheelExecutor Call} {taskList : TaskList Call}
    (h : exec.takeTick = .ok (taskList, exec')) : exec.timingWheelVec ≠ [] := by
  intro hnil
  obtain ⟨w, hw, -⟩ := (ticks_of_takeTick h).1.head
  simp [hnil] at hw

theorem Sound.aligned_of_ne_nil (h : Sound options s) (hne : s.exec.timingWheelVec ≠ []) :
    Aligned options.wheelSize s.ticks s.exec.timingWheelVec s.exec.timingTaskMap :=
  h.wheels.resolve_left fun hnil => hne hnil.1

/-- At the lock, the ticks done are the ticks counted. -/
theorem ticks_of_not_window (h : ¬ s.pc.InWindow) : s.ticks = s.exec.currentTickCount := by
  simp [ticks, h]

/-- While the tasks of a tick run the wheels have not been cleared. -/
theorem Sound.ne_nil_of_window (h : Sound options s) (hv : ValidSizes options.wheelSize)
    (hwindow : s.pc.InWindow) : s.exec.timingWheelVec ≠ [] := by
  have ha := h.wheels.resolve_left fun hnil => hnil.2 hwindow
  intro hnil
  have hlen := ha.length
  rw [hnil, List.length_nil, eq_comm, List.length_eq_zero_iff] at hlen
  exact hv.ne_nil hlen

theorem Quiet.ticks (h : Quiet s s') : s'.ticks = s.ticks := by
  simp only [TimerLoop.ticks, h.count, h.window]

theorem ticks_taken {taskList : TaskList Call} {exec : TimeWheelExecutor Call}
    (hpc : s.pc = .lock) (htake : s.exec.takeTick = .ok (taskList, exec)) :
    ticks { s with exec := exec, pc := .running taskList } = s.ticks + 1 := by
  have hcount : exec.currentTickCount = s.exec.currentTickCount := by
    rw [(ticks_of_takeTick htake).2]
  simp [ticks, hpc, Pc.InWindow, hcount]

theorem ticks_count (hpc : s.pc = .running []) :
    ticks { s with exec := s.exec.countTick, pc := .head } = s.ticks := by
  simp [ticks, hpc, Pc.InWindow, TimeWheelExecutor.countTick]

theorem ticks_begins {e : Entry} {rest : List Entry} (hpc : s.pc = .running (e :: rest))
    (ran : List Ran) : ticks { s with ran := ran, pc := .body rest } = s.ticks := by
  simp [ticks, hpc, Pc.InWindow]

theorem ticks_executeAt {tp : ℤ} {task : Call} {entry : Option Entry}
    {exec : TimeWheelExecutor Call} (hexec : s.exec.executeAt tp task = .ok (entry, exec)) :
    ticks { s with exec := exec, calls := s.calls + 1 } = s.ticks := by
  have hcount : exec.currentTickCount = s.exec.currentTickCount := by rw [executeAt_rest hexec]
  simp only [ticks, hcount]

theorem Sound.effect (hv : ValidSizes options.wheelSize) (h : Sound options s)
    (he : Effect s s') : Sound options s' := by
  cases he with
  | quiet hq =>
    refine ⟨hq.options.trans h.options_eq, hq.dtCount.trans h.dtCount_eq, ?_⟩
    rw [hq.ticks, hq.vec, hq.map, hq.window]
    exact h.wheels
  | @taken taskList exec hpc htake =>
    obtain ⟨hticks, hrest⟩ := ticks_of_takeTick htake
    have ha := h.aligned_of_ne_nil (takeTick_ne_nil htake)
    refine ⟨?_, ?_, Or.inr ?_⟩
    · rw [hrest]; exact h.options_eq
    · rw [hrest]; exact h.dtCount_eq
    · rw [ticks_taken hpc htake]
      exact ha.tick hv hticks
  | count hpc =>
    have hwindow : s.pc.InWindow := by simp [hpc, Pc.InWindow]
    refine ⟨h.options_eq, h.dtCount_eq, Or.inr ?_⟩
    rw [ticks_count hpc]
    exact h.aligned_of_ne_nil (h.ne_nil_of_window hv hwindow)
  | begins hpc =>
    have hwindow : s.pc.InWindow := by simp [hpc, Pc.InWindow]
    refine ⟨h.options_eq, h.dtCount_eq, Or.inr ?_⟩
    rw [ticks_begins hpc]
    exact h.aligned_of_ne_nil (h.ne_nil_of_window hv hwindow)
  | @executeAt tp entry exec hexec =>
    obtain ⟨hd, hp⟩ := executeAt_digits hexec
    have hrest := executeAt_rest hexec
    refine ⟨?_, ?_, ?_⟩
    · rw [hrest]; exact h.options_eq
    · rw [hrest]; exact h.dtCount_eq
    · rw [ticks_executeAt hexec]
      rcases h.wheels with ⟨hnil, hwindow⟩ | ha
      · refine Or.inl ⟨?_, hwindow⟩
        rw [hnil] at hd
        simpa [digits] using hd
      · exact Or.inr (ha.congr hd hp)
  | join hpc => exact ⟨h.options_eq, h.dtCount_eq, Or.inl ⟨rfl, id⟩⟩

theorem sound_run (hv : ValidSizes options.wheelSize)
    (hr : run step (TimerLoop.initial options) es = some s) (hlog : .logThrows ∉ es) :
    Sound options s :=
  run_effects (fun _ _ hs he => hs.effect hv he) (.initial hv) hr hlog

/-! ## The tasks -/

/-- The tasks run, the tasks taken and not yet begun, and the tasks held. -/
def known (s : TimerLoop) : Multiset Entry :=
  (s.ran.map Ran.entry : List Entry) + (s.pc.rest : Multiset Entry) +
    held s.exec.timingWheelVec s.exec.timingTaskMap

/-- The tasks begun and the tasks taken, each with its tick, in the order in which they run. -/
def history (s : TimerLoop) : List (ℕ × Entry) :=
  s.ran.map (fun r => (r.tick, r.entry)) ++ s.pc.rest.map fun e => (s.exec.currentTickCount, e)

/-- No task is in two places, and the calls to come have numbers of their own. -/
structure Accounted (s : TimerLoop) : Prop where
  nodup : (s.known.map (·.task.id)).Nodup
  id_lt : ∀ x ∈ s.known, x.task.id < s.calls

theorem Accounted.initial : Accounted (initial options) := by
  have h : (TimerLoop.initial options).known = 0 := by
    simp [known, TimerLoop.initial, Pc.rest, held_initialized]
  exact ⟨by simp [h], by simp [h]⟩

/-- A step adds the task of a new call, or no task. -/
theorem Effect.known (he : Effect s s') :
    (s'.known ≤ s.known ∧ s.calls ≤ s'.calls) ∨
      ∃ y : Entry, y.task.id = s.calls ∧ s'.known = s.known + {y} ∧ s'.calls = s.calls + 1 := by
  cases he with
  | quiet hq =>
    have hknown : s'.known = s.known := by
      simp only [TimerLoop.known, hq.ran, hq.rest, hq.vec, hq.map]
    exact Or.inl ⟨hknown.le, hq.calls.ge⟩
  | @taken taskList exec hpc htake =>
    obtain ⟨hticks, -⟩ := ticks_of_takeTick htake
    refine Or.inl ⟨?_, Nat.le_refl _⟩
    simp only [TimerLoop.known, hpc, Pc.rest, Multiset.coe_nil, add_zero, hticks.held, add_assoc]
    refine add_le_add_right ?_ _
    rw [add_left_comm]
    exact add_le_add_right (Multiset.le_add_right _ _) _
  | count hpc =>
    refine Or.inl ⟨le_of_eq ?_, Nat.le_refl _⟩
    simp [TimerLoop.known, hpc, Pc.rest, TimeWheelExecutor.countTick]
  | @begins e rest hpc =>
    refine Or.inl ⟨le_of_eq ?_, Nat.le_refl _⟩
    simp only [TimerLoop.known, hpc, Pc.rest, List.map_append, List.map_cons, List.map_nil,
      ← Multiset.coe_add, ← Multiset.cons_coe, Multiset.coe_nil, Multiset.cons_zero]
    rw [add_assoc (s.ran.map Ran.entry : Multiset Entry), Multiset.singleton_add]
  | @executeAt tp entry exec hexec =>
    rcases executeAt_appends hexec with ⟨-, -, rfl⟩ | ⟨-, -, -, place, happends⟩
    · exact Or.inl ⟨le_refl _, Nat.le_succ _⟩
    · refine Or.inr ⟨⟨s.exec.virtualTp tp / s.exec.dtCount, s.calls, s.exec.currentTickCount⟩, rfl,
        ?_, rfl⟩
      simp only [TimerLoop.known, held_put happends.filed, add_assoc]
  | join hpc =>
    refine Or.inl ⟨?_, Nat.le_refl _⟩
    have hran : TimerLoop.known { s with
        exec := { s.exec with
          timingWheelVec := []
          timingTaskMap := { s.exec.timingTaskMap with lists := ∅ } }
        pc := .noThread
        joining := false } = (s.ran.map Ran.entry : List Entry) := by
      simp [TimerLoop.known, held, Pc.rest]
    rw [hran, TimerLoop.known, add_assoc]
    exact Multiset.le_add_right _ _

theorem Accounted.effect (h : Accounted s) (he : Effect s s') : Accounted s' := by
  rcases he.known with ⟨hle, hcalls⟩ | ⟨y, hy, hknown, hcalls⟩
  · refine ⟨Multiset.nodup_of_le (Multiset.map_le_map hle) h.nodup, fun x hx => ?_⟩
    exact lt_of_lt_of_le (h.id_lt x (Multiset.mem_of_le hle hx)) hcalls
  · constructor
    · rw [hknown, Multiset.map_add, Multiset.map_singleton, Multiset.nodup_add]
      refine ⟨h.nodup, by simp, ?_⟩
      rw [Multiset.disjoint_singleton]
      intro hmem
      obtain ⟨x, hx, hid⟩ := Multiset.mem_map.mp hmem
      exact absurd (hid.trans hy) (h.id_lt x hx).ne
    · intro x hx
      rw [hcalls]
      rw [hknown] at hx
      rcases Multiset.mem_add.mp hx with hx | hx
      · exact Nat.lt_succ_of_lt (h.id_lt x hx)
      · rw [Multiset.mem_singleton.mp hx, hy]
        exact Nat.lt_succ_self _

theorem accounted_run (hr : run step (TimerLoop.initial options) es = some s)
    (hlog : .logThrows ∉ es) : Accounted s :=
  run_effects (fun _ _ h he => h.effect he) .initial hr hlog

/-- A task that has been run is the only one run with its number. -/
theorem Accounted.filter_ran (h : Accounted s) {r : Ran} (hr : r ∈ s.ran) :
    s.ran.filter (fun q => q.entry.task.id = r.entry.task.id) = [r] := by
  have hnodup : (s.ran.map fun q => q.entry.task.id).Nodup := by
    have hle : ((s.ran.map Ran.entry : List Entry) : Multiset Entry) ≤ s.known := by
      rw [known, add_assoc]
      exact Multiset.le_add_right _ _
    have hmap := Multiset.nodup_of_le (Multiset.map_le_map (f := fun x => x.task.id) hle) h.nodup
    simpa [Function.comp_def] using hmap
  exact Bag.filter_eq_singleton hnodup hr

/-! ## The clock -/

/-- A slice and what it leaves are what it began with. -/
theorem sleepSlice_add (dt realDt : ℤ) :
    (sleepSlice dt realDt).1 + (sleepSlice dt realDt).2 = realDt := by
  unfold sleepSlice
  dsimp only
  split <;> split <;> dsimp only <;> omega

end TimerLoop

/-- What is left to sleep before the next tick. -/
def Pc.remaining (dt : ℤ) : Pc → ℤ
  | .head => dt
  | .sleep realDt => realDt
  | .woken realDt => realDt
  | _ => 0

/-- A part of `dt`, which may be negative. -/
def PartOf (dt left : ℤ) : Prop := 0 ≤ left ∧ left ≤ dt ∨ dt ≤ left ∧ left ≤ 0

theorem partOf_zero (dt : ℤ) : PartOf dt 0 := by
  unfold PartOf
  omega

theorem partOf_self (dt : ℤ) : PartOf dt dt := by
  unfold PartOf
  omega

/-- What a slice leaves of a part of `dt` is one. -/
theorem PartOf.sleepSlice {dt realDt : ℤ} (h : PartOf dt realDt) (dt' : ℤ) :
    PartOf dt (sleepSlice dt' realDt).2 := by
  unfold PartOf TimeWheel.sleepSlice kMaxSleepDt at *
  dsimp only
  split <;> split <;> dsimp only <;> omega

namespace TimerLoop

variable {options : Options} {s s' u : TimerLoop} {es : List Act} {now : ℤ} {a : Act}

/-- The thread has not read the clock yet, and `Shutdown` has not been called. -/
structure Unstarted (s : TimerLoop) : Prop where
  state : s.exec.state ≠ .shutdown
  joining : s.joining = false
  pc : s.pc = .noThread ∨ s.pc = .entered
  count : s.exec.currentTickCount = 0
  ran : s.ran = []

/-- The thread has read `now` from the clock and `Shutdown` has not been called: every tick wakes up
`dt` after the tick before it. -/
structure Clocked (options : Options) (now : ℤ) (s : TimerLoop) : Prop where
  state : s.exec.state ≠ .shutdown
  joining : s.joining = false
  pc : s.pc.BetweenTicks ∨ s.pc.InWindow
  point : IsTimePoint now
  start : s.exec.startTimePoint = getTimestampNs now
  wakeUp : s.lastLoopTimePoint + s.pc.remaining options.dt =
    now + (s.exec.currentTickCount + 1) * options.dt
  ran : ∀ r ∈ s.ran, r.wakeUp = now + (r.tick + 1) * options.dt

theorem unstarted_initial : Unstarted (TimerLoop.initial options) :=
  ⟨by simp [TimerLoop.initial, TimeWheelExecutor.initialized, TimeWheelExecutor.initializeWith],
    rfl, Or.inl rfl, rfl, rfl⟩

/-- A move of the program counter that keeps what is left to sleep. -/
theorem Clocked.move (h : Clocked options now s) {pc : Pc}
    (hpc : pc.BetweenTicks ∨ pc.InWindow)
    (hleft : pc.remaining options.dt = s.pc.remaining options.dt) :
    Clocked options now { s with pc := pc } :=
  ⟨h.state, h.joining, hpc, h.point, h.start, by simpa only [hleft] using h.wakeUp, h.ran⟩

/-- After a tick is counted there is a whole `dt` to sleep before the next one. -/
theorem Clocked.counted (h : Clocked options now s) (hleft : s.pc.remaining options.dt = 0)
    {exec : TimeWheelExecutor Call} (hstate : exec.state = s.exec.state)
    (hstart : exec.startTimePoint = s.exec.startTimePoint)
    (hcount : exec.currentTickCount = s.exec.currentTickCount) :
    Clocked options now { s with exec := exec.countTick, pc := .head } := by
  refine ⟨?_, h.joining, Or.inl trivial, h.point, ?_, ?_, h.ran⟩
  · exact hstate ▸ h.state
  · exact hstart.trans h.start
  · have hwake := h.wakeUp
    rw [hleft] at hwake
    simp only [TimeWheelExecutor.countTick, Pc.remaining, hcount]
    rw [Nat.cast_add_one, add_one_mul (s.exec.currentTickCount + 1 : ℤ)]
    omega

theorem Clocked.step (hs : Sound options s) (h : Clocked options now s) (hstep : Step s a s')
    (hlog : a ≠ .logThrows) (hshut : a ≠ .shutdown) : Clocked options now s' := by
  cases hstep with
  | exit _ hstate => exact absurd hstate h.state
  | enter hpc _ => exact h.move (Or.inl trivial) (by simp [hpc, Pc.remaining, hs.options_eq])
  | @slice realDt hpc _ =>
    have hsum := sleepSlice_add s.exec.options.dt realDt
    have hwake := h.wakeUp
    refine ⟨h.state, h.joining, Or.inl trivial, h.point, h.start, ?_, h.ran⟩
    simp only [Pc.remaining, hpc] at hwake ⊢
    omega
  | again hpc _ _ => exact h.move (Or.inl trivial) (by simp [hpc, Pc.remaining])
  | wake hpc hdone =>
    have hzero := hdone.resolve_left h.state
    exact h.move (Or.inl trivial) (by simp [hpc, Pc.remaining, hzero])
  | @empty exec hpc htake =>
    obtain ⟨-, hrest⟩ := ticks_of_takeTick htake
    exact h.counted (by simp [hpc, Pc.remaining]) (by rw [hrest]) (by rw [hrest]) (by rw [hrest])
  | @taken taskList exec hpc _ htake =>
    obtain ⟨-, hrest⟩ := ticks_of_takeTick htake
    rw [hrest]
    have hwake := h.wakeUp
    refine ⟨h.state, h.joining, Or.inr trivial, h.point, h.start, ?_, h.ran⟩
    simpa [Pc.remaining, hpc] using hwake
  | count hpc => exact h.counted (by simp [hpc, Pc.remaining]) rfl rfl rfl
  | @begins e rest hpc =>
    have hwake := h.wakeUp
    simp only [Pc.remaining, hpc, add_zero] at hwake
    refine ⟨h.state, h.joining, Or.inr trivial, h.point, h.start,
      by simpa [Pc.remaining] using hwake, ?_⟩
    intro r hr
    rcases List.mem_append.mp hr with hr | hr
    · exact h.ran r hr
    · rw [List.mem_singleton.mp hr]
      exact hwake
  | clock hpc _ | outerLogged hpc | start _ hpc =>
    rcases h.pc with hb | hw
    · simp [hpc, Pc.BetweenTicks] at hb
    · simp [hpc, Pc.InWindow] at hw
  | returns hpc => exact h.move (Or.inr trivial) (by simp [hpc, Pc.remaining])
  | throws hpc => exact h.move (Or.inr trivial) (by simp [hpc, Pc.remaining])
  | logged hpc => exact h.move (Or.inr trivial) (by simp [hpc, Pc.remaining])
  | logThrows _ => exact absurd rfl hlog
  | @executeAt tp entry exec hexec =>
    have hrest := executeAt_rest hexec
    rw [hrest]
    exact ⟨h.state, h.joining, h.pc, h.point, h.start, h.wakeUp, h.ran⟩
  | initializeAgain | startRejected _ =>
    exact ⟨by simp, h.joining, h.pc, h.point, h.start, h.wakeUp, h.ran⟩
  | shutdownAgain _ => exact absurd rfl hshut
  | shutdown _ _ => exact absurd rfl hshut
  | join hjoin _ => simp [h.joining] at hjoin

theorem Clocked.run (hv : ValidSizes options.wheelSize) (hs : Sound options s)
    (h : Clocked options now s) (hr : run TimerLoop.step s es = some u) (hlog : .logThrows ∉ es)
    (hshut : .shutdown ∉ es) : Clocked options now u := by
  refine (run_invariant_of_mem (P := fun s => Sound options s ∧ Clocked options now s) ?_
    ⟨hs, h⟩ hr).2
  rintro s a u ⟨hs, h⟩ ha hu
  have hstep := step_cases hu
  have hlog' : a ≠ .logThrows := fun heq => hlog (heq ▸ ha)
  exact ⟨hstep.invariant (fun _ _ hs he => hs.effect hv he) hs hlog',
    h.step hs hstep hlog' fun heq => hshut (heq ▸ ha)⟩

theorem Unstarted.step (h : Unstarted s) (hstep : Step s a s')
    (hshut : a ≠ .shutdown) : Unstarted s' ∨ ∃ now, Clocked options now s' := by
  have hstarted : ∀ pc : Pc, s.pc = pc → pc = .noThread ∨ pc = .entered := fun pc heq => heq ▸ h.pc
  cases hstep with
  | exit hpc _ | enter hpc _ | slice hpc _ | again hpc _ _ | wake hpc _ | empty hpc _
  | taken hpc _ _ | count hpc | begins hpc | returns hpc | throws hpc | logged hpc
  | outerLogged hpc | logThrows hpc => exact absurd (hstarted _ hpc) (by simp)
  | @clock now hpc hpoint =>
    refine Or.inr ⟨now, h.state, h.joining, Or.inl trivial, hpoint, rfl, ?_, by simp [h.ran]⟩
    simp [Pc.remaining, h.count]
  | @executeAt tp entry exec hexec =>
    rw [executeAt_rest hexec]
    exact Or.inl ⟨h.state, h.joining, h.pc, h.count, h.ran⟩
  | initializeAgain | startRejected _ => exact Or.inl ⟨by simp, h.joining, h.pc, h.count, h.ran⟩
  | start _ hpc => exact Or.inl ⟨by simp, h.joining, Or.inr rfl, h.count, h.ran⟩
  | shutdownAgain _ | shutdown _ _ => exact absurd rfl hshut
  | join hjoin _ => simp [h.joining] at hjoin

/-- Without `Shutdown`, every tick wakes up at a multiple of `dt` after the first reading of the
clock. -/
theorem clocked_run (hv : ValidSizes options.wheelSize)
    (hr : run TimerLoop.step (TimerLoop.initial options) es = some s) (hlog : .logThrows ∉ es)
    (hshut : .shutdown ∉ es) : Unstarted s ∨ ∃ now, Clocked options now s := by
  refine (run_invariant_of_mem
    (P := fun s => Sound options s ∧ (Unstarted s ∨ ∃ now, Clocked options now s)) ?_
    ⟨.initial hv, Or.inl unstarted_initial⟩ hr).2
  rintro s a u ⟨hs, h⟩ ha hu
  have hstep := step_cases hu
  have hlog' : a ≠ .logThrows := fun heq => hlog (heq ▸ ha)
  have hshut' : a ≠ .shutdown := fun heq => hshut (heq ▸ ha)
  refine ⟨hstep.invariant (fun _ _ hs he => hs.effect hv he) hs hlog', ?_⟩
  rcases h with h | ⟨now, h⟩
  · exact h.step hstep hshut'
  · exact Or.inr ⟨now, h.step hs hstep hlog' hshut'⟩

end TimerLoop

end Ados.TimeWheel
