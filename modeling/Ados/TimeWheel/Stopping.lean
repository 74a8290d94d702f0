import Ados.TimeWheel.LoopInvariant

/-!
# The timer thread after `Shutdown`

`Shutdown` writes the state and joins the thread, which reads the state at the conditions of its two
loops. What it sleeps is cut short after the current slice, and the tick that follows is still made.

## Main definitions

* `Act.ofThread`: the steps of the timer thread and of the tasks and the logger that it calls
* `Pc.stepsLeft`, `Pc.ticksLeft`: what is left to do for a thread that has been told to stop
* `TimerLoop.Stops`: what holds from then on

## Main results

* `TimerLoop.Stops.step`: what one step does to it
* `TimerLoop.exists_thread_step`: the thread can go on until it has left its loop
* `TimerLoop.shutdown_bounded`: the thread makes no more than five steps, and three for every task,
  all of which are of one tick
-/

namespace Ados.TimeWheel

open Transition

/-- The steps of the timer thread, and of the tasks and the logger that it calls. -/
def Act.ofThread : Act → Bool
  | .loop | .clock _ | .taskReturns | .taskThrows | .logReturns | .logThrows => true
  | _ => false

/-- The state of a `Shutdown` executor is not written again. -/
def Act.revives : Act → Bool
  | .initializeAgain | .start => true
  | _ => false

namespace Pc

/-- The steps up to the end of the thread, beside three for every task that is run. -/
def stepsLeft : Pc → ℕ
  | .noThread => 0
  | .entered => 2
  | .head => 1
  | .sleep _ => 5
  | .woken _ => 4
  | .lock => 3
  | .running _ => 2
  | .body _ => 4
  | .innerCatch _ => 3
  | .outerCatch => 2
  | .exited => 0

/-- A tick is still to be counted. -/
def ticksLeft : Pc → ℕ
  | .sleep _ | .woken _ | .lock | .running _ | .body _ | .innerCatch _ => 1
  | _ => 0

theorem stepsLeft_le (pc : Pc) : pc.stepsLeft ≤ 5 := by
  cases pc <;> simp [stepsLeft]

end Pc

namespace TimerLoop

variable {options : Options} {s s' u : TimerLoop} {a : Act} {es fs : List Act} {c n : ℕ}

/-- The executor has been told to stop when `c` ticks had been counted and `n` tasks run. -/
structure Stops (c n : ℕ) (s : TimerLoop) : Prop where
  state : s.exec.state = .shutdown
  ge : c ≤ s.exec.currentTickCount
  le : s.exec.currentTickCount + s.pc.ticksLeft ≤ c + 1
  length : n ≤ s.ran.length
  ran : ∀ r ∈ s.ran.drop n, r.tick = c

theorem stops_of_state (hstate : s.exec.state = .shutdown) :
    Stops s.exec.currentTickCount s.ran.length s := by
  refine ⟨hstate, Nat.le_refl _, Nat.add_le_add_left ?_ _, Nat.le_refl _, by simp⟩
  cases s.pc <;> simp [Pc.ticksLeft]

/-- A move of the program counter. -/
theorem Stops.move (h : Stops c n s) {pc : Pc} (hpc : pc.ticksLeft ≤ s.pc.ticksLeft) :
    Stops c n { s with pc := pc } :=
  ⟨h.state, h.ge, (Nat.add_le_add_left hpc _).trans h.le, h.length, h.ran⟩

/-- A tick is counted. -/
theorem Stops.counted (h : Stops c n s) (hpc : s.pc.ticksLeft = 1)
    {exec : TimeWheelExecutor Call} (hstate : exec.state = s.exec.state)
    (hcount : exec.currentTickCount = s.exec.currentTickCount) :
    Stops c n { s with exec := exec.countTick, pc := .head } := by
  have hle := h.le
  have hge := h.ge
  rw [hpc] at hle
  refine ⟨hstate.trans h.state, ?_, ?_, h.length, h.ran⟩
  · simp only [TimeWheelExecutor.countTick, hcount]
    omega
  · simp only [TimeWheelExecutor.countTick, hcount, Pc.ticksLeft]
    omega

/-- A step while nobody writes `state_`: the loop is left at its next head, after the one tick that
may still be counted. -/
theorem Stops.step (h : Stops c n s) (hs : Step s a s') (hrevives : a.revives = false) :
    Stops c n s' ∧ s'.pc.stepsLeft + (if a.ofThread then 1 else 0) + 3 * s.ran.length ≤
      s.pc.stepsLeft + 3 * s'.ran.length := by
  cases hs with
  | enter _ hstate => exact absurd h.state hstate
  | again _ hstate _ => exact absurd h.state hstate
  | initializeAgain | start _ _ | startRejected _ => simp [Act.revives] at hrevives
  | shutdown hstate _ => exact absurd h.state hstate
  | exit hpc _ | wake hpc _ | returns hpc | throws hpc | logged hpc | outerLogged hpc
  | logThrows hpc =>
    exact ⟨h.move (by simp [hpc, Pc.ticksLeft]), by simp [hpc, Pc.stepsLeft, Act.ofThread]⟩
  | slice hpc _ =>
    refine ⟨⟨h.state, h.ge, ?_, h.length, h.ran⟩, by simp [hpc, Pc.stepsLeft, Act.ofThread]⟩
    simpa [hpc, Pc.ticksLeft] using h.le
  | clock hpc _ =>
    refine ⟨⟨h.state, h.ge, ?_, h.length, h.ran⟩, by simp [hpc, Pc.stepsLeft, Act.ofThread]⟩
    simpa [hpc, Pc.ticksLeft] using h.le
  | empty hpc htake =>
    obtain ⟨-, hrest⟩ := ticks_of_takeTick htake
    exact ⟨h.counted (by simp [hpc, Pc.ticksLeft]) (by rw [hrest]) (by rw [hrest]),
      by simp [hpc, Pc.stepsLeft, Act.ofThread]⟩
  | taken hpc _ htake =>
    obtain ⟨-, hrest⟩ := ticks_of_takeTick htake
    rw [hrest]
    refine ⟨⟨h.state, h.ge, ?_, h.length, h.ran⟩, by simp [hpc, Pc.stepsLeft, Act.ofThread]⟩
    simpa [hpc, Pc.ticksLeft] using h.le
  -- the one tick that may still be counted
  | count hpc =>
    exact ⟨h.counted (by simp [hpc, Pc.ticksLeft]) rfl rfl,
      by simp [hpc, Pc.stepsLeft, Act.ofThread]⟩
  | begins hpc =>
    have hle := h.le
    have hge := h.ge
    simp only [hpc, Pc.ticksLeft] at hle
    refine ⟨⟨h.state, h.ge, by simpa [Pc.ticksLeft] using hle, ?_, ?_⟩, ?_⟩
    · simpa using Nat.le_succ_of_le h.length
    · intro r hr
      rw [List.drop_append_of_le_length h.length] at hr
      rcases List.mem_append.mp hr with hr | hr
      · exact h.ran r hr
      · rw [List.mem_singleton.mp hr]
        dsimp only
        omega
    · simp only [hpc, Pc.stepsLeft, Act.ofThread, if_true, List.length_append,
        List.length_singleton]
      omega
  | executeAt hexec =>
    rw [executeAt_rest hexec]
    exact ⟨⟨h.state, h.ge, h.le, h.length, h.ran⟩, by simp [Act.ofThread]⟩
  | shutdownAgain _ => exact ⟨h, by simp [Act.ofThread]⟩
  | join _ _ =>
    refine ⟨⟨h.state, h.ge, ?_, h.length, h.ran⟩, by simp [Pc.stepsLeft, Act.ofThread]⟩
    exact (Nat.add_le_add_left (Nat.zero_le _) _).trans h.le

theorem stops_run (h : Stops c n s) (hr : run step s fs = some u)
    (hrevives : ∀ a ∈ fs, a.revives = false) : Stops c n u ∧
      u.pc.stepsLeft + fs.countP Act.ofThread + 3 * s.ran.length ≤
        s.pc.stepsLeft + 3 * u.ran.length := by
  refine ⟨run_invariant_of_mem (fun s a u hs ha hu => (hs.step (step_cases hu)
    (hrevives a ha)).1) h hr, ?_⟩
  exact run_meter (P := Stops c n) (fun t => t.pc.stepsLeft) (fun t => 3 * t.ran.length)
    Act.ofThread (fun s a u hs ha hu => hs.step (step_cases hu) (hrevives a ha)) h hr

/-! ## The thread goes on -/

/-- The next step of the thread has no defined behaviour: the clock ends before the slice does, or
the tick finds an index out of range. -/
def Faulty (s : TimerLoop) : Prop :=
  (∃ realDt, s.pc = .sleep realDt ∧
    ¬ IsTimePoint (s.lastLoopTimePoint + (sleepSlice s.exec.options.dt realDt).1)) ∨
  s.pc = .lock ∧ ∃ fault, s.exec.takeTick = .error fault

/-- **The thread can go on until it has left its loop.** -/
theorem exists_thread_step (hpc : s.pc ≠ .noThread ∧ s.pc ≠ .exited) (hfault : ¬ s.Faulty) :
    ∃ a : Act, a.ofThread = true ∧ (TimerLoop.step s a).isSome = true := by
  cases hp : s.pc with
  | noThread => exact absurd hp hpc.1
  | exited => exact absurd hp hpc.2
  | entered => exact ⟨.clock 0, rfl, by simp [TimerLoop.step, hp, IsTimePoint]⟩
  | head =>
    refine ⟨.loop, rfl, ?_⟩
    by_cases hstate : s.exec.state = .shutdown <;> simp [TimerLoop.step, loopStep, hp, hstate]
  | sleep realDt =>
    have hpoint : IsTimePoint (s.lastLoopTimePoint + (sleepSlice s.exec.options.dt realDt).1) := by
      by_contra hend
      exact hfault (.inl ⟨realDt, hp, hend⟩)
    exact ⟨.loop, rfl, by simp [TimerLoop.step, loopStep, hp, hpoint]⟩
  | woken realDt =>
    refine ⟨.loop, rfl, ?_⟩
    by_cases hgo : s.exec.state ≠ .shutdown ∧ realDt ≠ 0
    · simp only [TimerLoop.step, loopStep, hp, if_pos hgo, Option.isSome_some]
    · simp only [TimerLoop.step, loopStep, hp, if_neg hgo, Option.isSome_some]
  | lock =>
    cases htake : s.exec.takeTick with
    | error fault => exact absurd (.inr ⟨hp, fault, htake⟩) hfault
    | ok r => exact ⟨.loop, rfl, by simp [TimerLoop.step, loopStep, hp, htake, Except.toOption]⟩
  | running rest => exact ⟨.loop, rfl, by cases rest <;> simp [TimerLoop.step, loopStep, hp]⟩
  | body rest => exact ⟨.taskReturns, rfl, by simp [TimerLoop.step, hp]⟩
  | innerCatch rest => exact ⟨.logReturns, rfl, by simp [TimerLoop.step, hp]⟩
  | outerCatch => exact ⟨.logReturns, rfl, by simp [TimerLoop.step, hp]⟩

/-- **A stopped timer thread ends soon.** Let the state be `kShutdown`, and be written by no later
`Initialize` or `Start`. Whatever the other threads do, the timer thread makes at most five more
steps and three for every task that it runs; it counts at most one more tick; the tasks that it
runs are all of the tick that was due at the shutdown; and until it has left its loop it can go on,
unless the clock ends or a tick finds an index out of range. -/
theorem shutdown_bounded (hstate : s.exec.state = .shutdown) (hr : run step s fs = some u)
    (hrevives : ∀ a ∈ fs, a.revives = false) :
    fs.countP Act.ofThread ≤ 5 + 3 * (u.ran.length - s.ran.length) ∧
    u.exec.currentTickCount ≤ s.exec.currentTickCount + 1 ∧
    (∀ r ∈ u.ran.drop s.ran.length, r.tick = s.exec.currentTickCount) ∧
    (u.pc ≠ .noThread ∧ u.pc ≠ .exited → ¬ u.Faulty →
      ∃ a : Act, a.ofThread = true ∧ (step u a).isSome = true) := by
  obtain ⟨h, hsteps⟩ := stops_run (stops_of_state hstate) hr hrevives
  have hle := s.pc.stepsLeft_le
  have hticks := h.le
  exact ⟨by omega, by omega, h.ran, exists_thread_step⟩

/-- A shutdown in the sleep before the tick of a task. -/
theorem shutdown_bounded_task :
    ∃ s u, run step (initial { dt := 1, wheelSize := [4] })
        [.start, .clock 0, .executeAt 0, .loop, .shutdown] = some s ∧
      run step s [.loop, .loop, .loop, .loop, .taskReturns, .loop, .loop, .join] = some u ∧
      [Act.loop, .loop, .loop, .loop, .taskReturns, .loop, .loop, .join].countP Act.ofThread ≤
        5 + 3 * (u.ran.length - s.ran.length) := by
  have h : (run step (initial { dt := 1, wheelSize := [4] })
      [.start, .clock 0, .executeAt 0, .loop, .shutdown]).bind (fun s => (run step s
        [.loop, .loop, .loop, .loop, .taskReturns, .loop, .loop, .join]).map fun u =>
          (s.exec.state, u.pc)) = some (.shutdown, .noThread) := by
    decide +kernel
  obtain ⟨s, hs, h⟩ := Option.bind_eq_some_iff.mp h
  obtain ⟨u, hu, h⟩ := Option.map_eq_some_iff.mp h
  obtain ⟨hstate, -⟩ := Prod.mk.inj h
  exact ⟨s, u, hs, hu, (shutdown_bounded hstate hu (by decide)).1⟩

end TimerLoop

end Ados.TimeWheel
