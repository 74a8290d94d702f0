import Ados.TimeWheel.System

/-!
# The timer loop, step by step

`TimerLoop` with its program counter, against the calls that other threads and running tasks make.
The parts of the loop under `tick_mutex_` are one step each: the `Tick` of the first wheel, which
also counts when its list is empty, and the `++current_tick_count_` after the tasks of a list have
run. Between the two the mutex is free, and `ExecuteAt` may be called.

`clock` is the first reading of the clock in the thread. A task returns or throws a
`std::exception`; so does a call of the logger in one of the two handlers, and what the outer
handler's logger throws leaves the thread and ends the process. A run ends before a step without
defined behaviour: an index out of range, a division by zero, a time point out of range, a second
thread assigned to the pointer of a live one, two `Shutdown` calls that join at the same time.

## Main definitions

* `sleepSlice`: one pass of the sliced sleep
* `Pc`, `TimerLoop`, `Act`: the program counter, the executor with its loop, and the steps
* `TimerLoop.step`, `TimerLoop.Step`: the step function, and what one step can do
* `TimerLoop.Effect`: what a step does to the wheels, the counter and the history
* `TimerLoop.ticks`: the number of times that the loop has ticked the first wheel

## Main results

* `TimerLoop.step_cases`: every step is one of those
* `TimerLoop.run_effects`: what the effects keep, every run keeps whose logger does not throw
-/

namespace Ados.TimeWheel

open Transition

/-- `kMaxSleepDt`, in nanoseconds. -/
def kMaxSleepDt : ℤ := 1000 * 1000 * 1000

/-- One pass of the sliced sleep: the time slept, and what is left of `real_dt`. -/
def sleepSlice (dt realDt : ℤ) : ℤ × ℤ :=
  let sleepTime := if kMaxSleepDt < realDt then kMaxSleepDt else realDt
  let rest := realDt - sleepTime
  if rest ≠ 0 ∧ dt < kMaxSleepDt ∧ rest ≤ dt then (sleepTime + rest, 0) else (sleepTime, rest)

/-- Where the timer thread is. -/
inductive Pc where
  /-- there is no thread -/
  | noThread
  /-- before the first reading of the clock -/
  | entered
  /-- at the condition of the outer loop -/
  | head
  /-- before the sleep of a slice, with `real_dt` left -/
  | sleep (realDt : ℤ)
  /-- at the condition of the inner loop, with `real_dt` left -/
  | woken (realDt : ℤ)
  /-- before the `Tick` of the first wheel -/
  | lock
  /-- between two tasks of the list taken, with the tasks not yet begun -/
  | running (rest : List Entry)
  /-- in the body of a task -/
  | body (rest : List Entry)
  /-- logging what a task threw -/
  | innerCatch (rest : List Entry)
  /-- logging what the inner handler threw -/
  | outerCatch
  /-- the loop has ended -/
  | exited
  deriving DecidableEq, Repr

/-- A task that has been run: the tick that ran it, `last_loop_time_point` at that tick, the task.
-/
structure Ran where
  tick : ℕ
  wakeUp : ℤ
  entry : Entry
  deriving DecidableEq, Repr

/-- An executor with its timer thread, and the history: the number of `ExecuteAt` calls and the
tasks run. `joining` is set while a `Shutdown` call waits for the thread. -/
structure TimerLoop where
  exec : TimeWheelExecutor Call
  lastLoopTimePoint : ℤ := 0
  pc : Pc := .noThread
  joining : Bool := false
  calls : ℕ := 0
  ran : List Ran := []

inductive Act where
  | loop
  | clock (now : ℤ)
  | taskReturns
  | taskThrows
  | logReturns
  | logThrows
  | executeAt (tp : ℤ)
  | initializeAgain
  | start
  | shutdown
  | join
  deriving DecidableEq, Repr

namespace Pc

/-- The tasks of the list taken that have not begun. -/
def rest : Pc → List Entry
  | .running rest => rest
  | .body rest => rest
  | .innerCatch rest => rest
  | _ => []

/-- The list of a tick has been taken, and the tick is not yet counted. -/
def InWindow : Pc → Prop
  | .running _ => True
  | .body _ => True
  | .innerCatch _ => True
  | _ => False

instance : DecidablePred InWindow
  | .running _ | .body _ | .innerCatch _ => isTrue trivial
  | .noThread | .entered | .head | .sleep _ | .woken _ | .lock | .outerCatch | .exited => isFalse id

/-- The thread has read the clock and the list of the last tick has been run and counted. -/
def BetweenTicks : Pc → Prop
  | .head => True
  | .sleep _ => True
  | .woken _ => True
  | .lock => True
  | _ => False

end Pc

namespace TimerLoop

/-- An executor after `Initialize`. -/
def initial (options : Options) : TimerLoop := { exec := .initialized options }

/-- A step of the timer thread that neither a task nor the logger nor the clock decides. -/
def loopStep (s : TimerLoop) : Option TimerLoop :=
  match s.pc with
  | .head =>
    if s.exec.state = .shutdown then some { s with pc := .exited }
    else some { s with pc := .sleep s.exec.options.dt }
  | .sleep realDt =>
    let slice := sleepSlice s.exec.options.dt realDt
    if IsTimePoint (s.lastLoopTimePoint + slice.1) then
      some { s with lastLoopTimePoint := s.lastLoopTimePoint + slice.1, pc := .woken slice.2 }
    else none
  | .woken realDt =>
    if s.exec.state ≠ .shutdown ∧ realDt ≠ 0 then some { s with pc := .sleep realDt }
    else some { s with pc := .lock }
  | .lock =>
    s.exec.takeTick.toOption.map fun r =>
      if r.1 = [] then { s with exec := r.2.countTick, pc := .head }
      else { s with exec := r.2, pc := .running r.1 }
  | .running [] => some { s with exec := s.exec.countTick, pc := .head }
  | .running (e :: rest) =>
    some { s with
      ran := s.ran ++ [⟨s.exec.currentTickCount, s.lastLoopTimePoint, e⟩]
      pc := .body rest }
  | _ => none

/-- One step of the timer thread, of a task or the logger called by it, or of a caller. -/
def step (s : TimerLoop) : Act → Option TimerLoop
  | .loop => s.loopStep
  | .clock now =>
    if s.pc = .entered ∧ IsTimePoint now then
      some { s with
        exec := { s.exec with startTimePoint := getTimestampNs now }
        lastLoopTimePoint := now
        pc := .head }
    else none
  | .taskReturns =>
    match s.pc with
    | .body rest => some { s with pc := .running rest }
    | _ => none
  | .taskThrows =>
    match s.pc with
    | .body rest => some { s with pc := .innerCatch rest }
    | _ => none
  | .logReturns =>
    match s.pc with
    | .innerCatch rest => some { s with pc := .running rest }
    | .outerCatch => some { s with pc := .head }
    | _ => none
  | .logThrows =>
    match s.pc with
    | .innerCatch _ => some { s with pc := .outerCatch }
    | _ => none
  | .executeAt tp =>
    (s.exec.executeAt tp ⟨s.calls, s.exec.currentTickCount⟩).toOption.map fun r =>
      { s with exec := r.2, calls := s.calls + 1 }
  -- a second `Initialize` throws, after it has written the state
  | .initializeAgain => some { s with exec := { s.exec with state := .init } }
  | .start =>
    if s.exec.state = .init then
      if s.pc = .noThread then
        some { s with exec := { s.exec with state := .start }, pc := .entered }
      else none
    else some { s with exec := { s.exec with state := .start } }
  | .shutdown =>
    if s.exec.state = .shutdown then some s
    else if s.joining then none
    else some { s with exec := { s.exec with state := .shutdown }, joining := true }
  | .join =>
    if s.joining ∧ (s.pc = .noThread ∨ s.pc = .exited) then
      some { s with
        exec := { s.exec with
          timingWheelVec := []
          timingTaskMap := { s.exec.timingTaskMap with lists := ∅ } }
        pc := .noThread
        joining := false }
    else none

/-- What one step can do. -/
inductive Step (s : TimerLoop) : Act → TimerLoop → Prop
  | exit : s.pc = .head → s.exec.state = .shutdown → Step s .loop { s with pc := .exited }
  | enter : s.pc = .head → s.exec.state ≠ .shutdown →
      Step s .loop { s with pc := .sleep s.exec.options.dt }
  | slice {realDt} : s.pc = .sleep realDt →
      IsTimePoint (s.lastLoopTimePoint + (sleepSlice s.exec.options.dt realDt).1) →
      Step s .loop { s with
        lastLoopTimePoint := s.lastLoopTimePoint + (sleepSlice s.exec.options.dt realDt).1
        pc := .woken (sleepSlice s.exec.options.dt realDt).2 }
  | again {realDt} : s.pc = .woken realDt → s.exec.state ≠ .shutdown → realDt ≠ 0 →
      Step s .loop { s with pc := .sleep realDt }
  | wake {realDt} : s.pc = .woken realDt → s.exec.state = .shutdown ∨ realDt = 0 →
      Step s .loop { s with pc := .lock }
  | empty {exec} : s.pc = .lock → s.exec.takeTick = .ok ([], exec) →
      Step s .loop { s with exec := exec.countTick, pc := .head }
  | taken {taskList exec} : s.pc = .lock → taskList ≠ [] → s.exec.takeTick = .ok (taskList, exec) →
      Step s .loop { s with exec := exec, pc := .running taskList }
  | count : s.pc = .running [] → Step s .loop { s with exec := s.exec.countTick, pc := .head }
  | begins {e rest} : s.pc = .running (e :: rest) →
      Step s .loop { s with
        ran := s.ran ++ [⟨s.exec.currentTickCount, s.lastLoopTimePoint, e⟩]
        pc := .body rest }
  | clock {now} : s.pc = .entered → IsTimePoint now →
      Step s (.clock now) { s with
        exec := { s.exec with startTimePoint := getTimestampNs now }
        lastLoopTimePoint := now
        pc := .head }
  | returns {rest} : s.pc = .body rest → Step s .taskReturns { s with pc := .running rest }
  | throws {rest} : s.pc = .body rest → Step s .taskThrows { s with pc := .innerCatch rest }
  | logged {rest} : s.pc = .innerCatch rest → Step s .logReturns { s with pc := .running rest }
  | outerLogged : s.pc = .outerCatch → Step s .logReturns { s with pc := .head }
  | logThrows {rest} : s.pc = .innerCatch rest → Step s .logThrows { s with pc := .outerCatch }
  | executeAt {tp entry exec} :
      s.exec.executeAt tp ⟨s.calls, s.exec.currentTickCount⟩ = .ok (entry, exec) →
      Step s (.executeAt tp) { s with exec := exec, calls := s.calls + 1 }
  | initializeAgain : Step s .initializeAgain { s with exec := { s.exec with state := .init } }
  | start : s.exec.state = .init → s.pc = .noThread →
      Step s .start { s with exec := { s.exec with state := .start }, pc := .entered }
  | startRejected : s.exec.state ≠ .init →
      Step s .start { s with exec := { s.exec with state := .start } }
  | shutdownAgain : s.exec.state = .shutdown → Step s .shutdown s
  | shutdown : s.exec.state ≠ .shutdown → s.joining = false →
      Step s .shutdown { s with exec := { s.exec with state := .shutdown }, joining := true }
  | join : s.joining = true → s.pc = .noThread ∨ s.pc = .exited →
      Step s .join { s with
        exec := { s.exec with
          timingWheelVec := []
          timingTaskMap := { s.exec.timingTaskMap with lists := ∅ } }
        pc := .noThread
        joining := false }

theorem loop_cases {s s' : TimerLoop} (h : loopStep s = some s') : Step s .loop s' := by
  unfold loopStep at h
  split at h
  · next hpc =>
    split at h <;> cases h
    · exact .exit hpc ‹_›
    · exact .enter hpc ‹_›
  · next realDt hpc =>
    dsimp only at h
    split at h
    · next hpoint =>
      cases h
      exact .slice hpc hpoint
    · exact absurd h (by simp)
  · next realDt hpc =>
    split at h
    · next hgo =>
      cases h
      exact .again hpc hgo.1 hgo.2
    · next hgo =>
      cases h
      exact .wake hpc (by tauto)
  · next hpc =>
    obtain ⟨⟨taskList, exec⟩, htake, rfl⟩ := Timer.toOption_eq_some.mp h
    by_cases hl : taskList = []
    · subst hl
      exact .empty hpc htake
    · simp only [hl, if_false]
      exact .taken hpc hl htake
  · next hpc =>
    cases h
    exact .count hpc
  · next e rest hpc =>
    cases h
    exact .begins hpc
  · exact absurd h (by simp)

theorem step_cases {s s' : TimerLoop} {a : Act} (h : step s a = some s') : Step s a s' := by
  cases a with
  | loop => exact loop_cases h
  | clock now =>
    simp only [step] at h
    split at h
    · next hs =>
      cases h
      exact .clock hs.1 hs.2
    · exact absurd h (by simp)
  | taskReturns =>
    simp only [step] at h
    split at h
    · next hpc =>
      cases h
      exact .returns hpc
    · exact absurd h (by simp)
  | taskThrows =>
    simp only [step] at h
    split at h
    · next hpc =>
      cases h
      exact .throws hpc
    · exact absurd h (by simp)
  | logReturns =>
    simp only [step] at h
    split at h
    · next hpc =>
      cases h
      exact .logged hpc
    · next hpc =>
      cases h
      exact .outerLogged hpc
    · exact absurd h (by simp)
  | logThrows =>
    simp only [step] at h
    split at h
    · next hpc =>
      cases h
      exact .logThrows hpc
    · exact absurd h (by simp)
  | executeAt tp =>
    obtain ⟨⟨entry, exec⟩, hexec, rfl⟩ := Timer.toOption_eq_some.mp h
    exact .executeAt hexec
  | initializeAgain =>
    cases h
    exact .initializeAgain
  | start =>
    simp only [step] at h
    split at h
    · next hstate =>
      split at h
      · next hpc =>
        cases h
        exact .start hstate hpc
      · exact absurd h (by simp)
    · next hstate =>
      cases h
      exact .startRejected hstate
  | shutdown =>
    simp only [step] at h
    split at h
    · next hstate =>
      cases h
      exact .shutdownAgain hstate
    · next hstate =>
      split at h
      · exact absurd h (by simp)
      · next hjoin =>
        cases h
        exact .shutdown hstate (by simpa using hjoin)
  | join =>
    simp only [step] at h
    split at h
    · next hs =>
      cases h
      exact .join hs.1 hs.2
    · exact absurd h (by simp)

/-! ## The effect of a step on the wheels -/

/-- The number of times that the loop has ticked the first wheel, as long as no handler of it has
been left by an exception. -/
def ticks (s : TimerLoop) : ℕ := s.exec.currentTickCount + if s.pc.InWindow then 1 else 0

/-- A step that leaves wheels, map, counter and history as they are, and the list taken. -/
structure Quiet (s s' : TimerLoop) : Prop where
  vec : s'.exec.timingWheelVec = s.exec.timingWheelVec
  map : s'.exec.timingTaskMap = s.exec.timingTaskMap
  count : s'.exec.currentTickCount = s.exec.currentTickCount
  options : s'.exec.options = s.exec.options
  dtCount : s'.exec.dtCount = s.exec.dtCount
  rest : s'.pc.rest = s.pc.rest
  window : s'.pc.InWindow ↔ s.pc.InWindow
  calls : s'.calls = s.calls
  ran : s'.ran = s.ran

/-- What a step does to wheels, map, counter and history. -/
inductive Effect (s : TimerLoop) : TimerLoop → Prop
  | quiet {s'} : Quiet s s' → Effect s s'
  | taken {taskList exec} : s.pc = .lock → s.exec.takeTick = .ok (taskList, exec) →
      Effect s { s with exec := exec, pc := .running taskList }
  | count : s.pc = .running [] → Effect s { s with exec := s.exec.countTick, pc := .head }
  | begins {e rest} : s.pc = .running (e :: rest) →
      Effect s { s with
        ran := s.ran ++ [⟨s.exec.currentTickCount, s.lastLoopTimePoint, e⟩]
        pc := .body rest }
  | executeAt {tp entry exec} :
      s.exec.executeAt tp ⟨s.calls, s.exec.currentTickCount⟩ = .ok (entry, exec) →
      Effect s { s with exec := exec, calls := s.calls + 1 }
  | join : s.pc = .noThread ∨ s.pc = .exited →
      Effect s { s with
        exec := { s.exec with
          timingWheelVec := []
          timingTaskMap := { s.exec.timingTaskMap with lists := ∅ } }
        pc := .noThread
        joining := false }

/-- A move of the program counter that keeps the list taken is quiet. -/
theorem quiet_pc {s : TimerLoop} {pc : Pc} (hrest : pc.rest = s.pc.rest)
    (hwindow : pc.InWindow ↔ s.pc.InWindow) : Effect s { s with pc := pc } :=
  .quiet ⟨rfl, rfl, rfl, rfl, rfl, hrest, hwindow, rfl, rfl⟩

/-- What the effects keep, every step but a throw of the logger keeps. The tick of an empty list is
the effect of taking it and the effect of counting. -/
theorem Step.invariant {P : TimerLoop → Prop} (hP : ∀ s s', P s → Effect s s' → P s')
    {s s' : TimerLoop} {a : Act} (hs : P s) (h : Step s a s') (ha : a ≠ .logThrows) : P s' := by
  cases h with
  | exit hpc _ => exact hP _ _ hs (quiet_pc (by simp [hpc, Pc.rest]) (by simp [hpc, Pc.InWindow]))
  | enter hpc _ => exact hP _ _ hs (quiet_pc (by simp [hpc, Pc.rest]) (by simp [hpc, Pc.InWindow]))
  | slice hpc _ =>
    exact hP _ _ hs (.quiet ⟨rfl, rfl, rfl, rfl, rfl, by simp [hpc, Pc.rest],
      by simp [hpc, Pc.InWindow], rfl, rfl⟩)
  | again hpc _ _ =>
    exact hP _ _ hs (quiet_pc (by simp [hpc, Pc.rest]) (by simp [hpc, Pc.InWindow]))
  | wake hpc _ => exact hP _ _ hs (quiet_pc (by simp [hpc, Pc.rest]) (by simp [hpc, Pc.InWindow]))
  | empty hpc htake =>
    exact hP _ _ (hP _ _ hs (.taken hpc htake)) (.count rfl)
  | taken hpc _ htake => exact hP _ _ hs (.taken hpc htake)
  | count hpc => exact hP _ _ hs (.count hpc)
  | begins hpc => exact hP _ _ hs (.begins hpc)
  | clock hpc _ =>
    exact hP _ _ hs (.quiet ⟨rfl, rfl, rfl, rfl, rfl, by simp [hpc, Pc.rest],
      by simp [hpc, Pc.InWindow], rfl, rfl⟩)
  | returns hpc =>
    exact hP _ _ hs (quiet_pc (by simp [hpc, Pc.rest]) (by simp [hpc, Pc.InWindow]))
  | throws hpc =>
    exact hP _ _ hs (quiet_pc (by simp [hpc, Pc.rest]) (by simp [hpc, Pc.InWindow]))
  | logged hpc =>
    exact hP _ _ hs (quiet_pc (by simp [hpc, Pc.rest]) (by simp [hpc, Pc.InWindow]))
  | outerLogged hpc =>
    exact hP _ _ hs (quiet_pc (by simp [hpc, Pc.rest]) (by simp [hpc, Pc.InWindow]))
  | logThrows _ => exact absurd rfl ha
  | executeAt hexec => exact hP _ _ hs (.executeAt hexec)
  | start _ hpc =>
    exact hP _ _ hs (.quiet ⟨rfl, rfl, rfl, rfl, rfl, by simp [hpc, Pc.rest],
      by simp [hpc, Pc.InWindow], rfl, rfl⟩)
  | initializeAgain | startRejected _ | shutdownAgain _ | shutdown _ _ =>
    exact hP _ _ hs (.quiet ⟨rfl, rfl, rfl, rfl, rfl, rfl, Iff.rfl, rfl, rfl⟩)
  | join _ hpc => exact hP _ _ hs (.join hpc)

/-- What the effects keep, every run keeps whose logger does not throw. -/
theorem run_effects {P : TimerLoop → Prop} (hP : ∀ s s', P s → Effect s s' → P s')
    {s u : TimerLoop} {es : List Act} (hs : P s) (hr : run step s es = some u)
    (hlog : .logThrows ∉ es) : P u :=
  run_invariant_of_mem (fun _ _ _ hs he ha => (step_cases ha).invariant hP hs
    fun heq => hlog (heq ▸ he)) hs hr

end TimerLoop

end Ados.TimeWheel
