import Ados.TimeWheel.Agenda
import Ados.TimeWheel.LoopInvariant

/-!
# The timer loop runs whole ticks

As long as `ExecuteAt` is called between ticks and neither `Shutdown` nor the logger disturbs the
loop, its runs are runs of whole ticks: the clock is read by `Start`, the sleeps and the tasks run
are no events, and a tick happens when its list is taken. So what is known of the runs of whole
ticks is known of the timer loop.

## Main definitions

* `TimerLoop.Undisturbed`: the steps of such a run
* `TimerLoop.Phase`, `TimerLoop.Refines`: the executor and its history as the runs of whole ticks
  see them

## Main results

* `TimerLoop.refines_run`: an undisturbed run of the loop is a run of whole ticks
* `TimerLoop.ran_at_fireTick`: every task filed in time is run at its `fireTick`
* `TimerLoop.agenda_of_single`: with one wheel, what such a run does to the tasks filed in time is a
  run of an agenda
-/

namespace Ados.TimeWheel

open Transition

/-- `ExecuteAt` does not read the lifecycle state. -/
theorem executeAt_withState {Task : Type} (exec : TimeWheelExecutor Task) (state : State) (tp : ℤ)
    (task : Task) :
    TimeWheelExecutor.executeAt { exec with state := state } tp task =
      (exec.executeAt tp task).map fun r => (r.1, { r.2 with state := state }) := by
  unfold TimeWheelExecutor.executeAt
  dsimp only
  split
  · rfl
  · split
    · rfl
    · cases locate 0 exec.options.wheelSize _ exec.currentTickCount with
      | error fault => rfl
      | ok place =>
        simp only [Except.bind]
        cases put exec.timingWheelVec exec.timingTaskMap place _ <;> rfl

namespace TimerLoop

/-- The steps of a loop that runs undisturbed. -/
def Undisturbed (s : TimerLoop) : Act → Prop
  | .executeAt _ => ¬ s.pc.InWindow
  | .logThrows => False
  | .initializeAgain => False
  | .shutdown => False
  | _ => True

/-- Executor and clock in whole ticks. The executor counts as started when the clock has been read,
a tick as done when its list has been taken; between two ticks the clock still stands at the tick
before. -/
def Phase (s : TimerLoop) (t : Timer) : Prop :=
  match s.pc with
  | .noThread => s.exec.state = .init ∧ t.exec = s.exec
  | .entered => s.exec.state = .start ∧ t.exec = { s.exec with state := .init }
  | .running _ | .body _ | .innerCatch _ =>
    s.exec.state = .start ∧ IsTimePoint s.lastLoopTimePoint ∧ t.exec = s.exec.countTick ∧
      t.lastLoopTimePoint = s.lastLoopTimePoint
  | .head | .sleep _ | .woken _ | .lock =>
    s.exec.state = .start ∧ IsTimePoint s.lastLoopTimePoint ∧ t.exec = s.exec ∧
      t.lastLoopTimePoint + s.exec.options.dt =
        s.lastLoopTimePoint + s.pc.remaining s.exec.options.dt
  | .outerCatch | .exited => False

/-- The state `t` of a run of whole ticks is what the loop has reached. -/
structure Refines (s : TimerLoop) (t : Timer) : Prop where
  phase : Phase s t
  joining : s.joining = false
  calls : t.calls = s.calls
  returned : t.returned = s.history

variable {options : Options} {s s' : TimerLoop} {t : Timer} {es : List Act}

theorem refines_initial : Refines (initial options) (Timer.initial options) :=
  ⟨⟨rfl, rfl⟩, rfl, rfl, rfl⟩

/-- A step of the loop that is no event in whole ticks. -/
theorem Refines.silent (h : Refines s t) (hphase : Phase s' t) (hjoining : s'.joining = s.joining)
    (hcalls : s'.calls = s.calls)
    (hhistory : s'.history = s.history) :
    ∃ fs t', run Timer.step t fs = some t' ∧ Refines s' t' :=
  ⟨[], t, rfl, hphase, hjoining.trans h.joining, h.calls.trans hcalls.symm,
    h.returned.trans hhistory.symm⟩

/-- A step of the loop that is one event in whole ticks. -/
theorem answered {t' : Timer} {ev : Event} (hstep : Timer.step t ev = some t')
    (h : Refines s' t') :
    ∃ fs t', run Timer.step t fs = some t' ∧ Refines s' t' :=
  ⟨[ev], t', (run_singleton t ev).trans hstep, h⟩

/-- At the lock, the tick of the loop is a whole tick. -/
theorem Refines.tick (h : Refines s t) (hpc : s.pc = .lock) {taskList : TaskList Call}
    {exec : TimeWheelExecutor Call} (htake : s.exec.takeTick = .ok (taskList, exec)) :
    Timer.step t .tick = some { t with
      exec := exec.countTick
      lastLoopTimePoint := s.lastLoopTimePoint
      returned := t.returned ++ taskList.map fun e => (s.exec.currentTickCount, e) } := by
  have hphase := h.phase
  simp only [Phase, hpc, Pc.remaining, add_zero] at hphase
  obtain ⟨hstate, hpoint, hexec, hclock⟩ := hphase
  have htick : s.exec.timerTick = .ok (taskList, exec.countTick) := by
    rw [TimeWheelExecutor.timerTick, htake]
    rfl
  simp only [Timer.step, hexec, hstate, hclock, hpoint, htick, and_self, if_true]
  rfl

/-- Outside the window of a tick the two executors differ in the lifecycle state at most, and a call
of `ExecuteAt` leaves it so. -/
theorem Phase.executeAt (h : Phase s t) (hwindow : ¬ s.pc.InWindow) :
    ∃ state, t.exec = { s.exec with state := state } ∧
      ∀ (exec : TimeWheelExecutor Call) (calls : ℕ) {t' : Timer}, exec.state = s.exec.state →
        exec.options = s.exec.options → t'.exec = { exec with state := state } →
        t'.lastLoopTimePoint = t.lastLoopTimePoint →
        Phase { s with exec := exec, calls := calls } t' := by
  obtain ⟨sexec, last, pc, joining, calls, ran⟩ := s
  cases pc with
  | noThread =>
    obtain ⟨hinit, hexec⟩ := h
    refine ⟨sexec.state, hexec, fun exec calls t' hstate _ ht' _ => ⟨hstate.trans hinit, ?_⟩⟩
    rw [ht', ← hstate]
  | entered =>
    obtain ⟨hstart, hexec⟩ := h
    exact ⟨.init, hexec, fun exec calls t' hstate _ ht' _ => ⟨hstate.trans hstart, ht'⟩⟩
  | head | sleep _ | woken _ | lock =>
    obtain ⟨hstart, hpoint, hexec, hclock⟩ := h
    refine ⟨sexec.state, hexec, fun exec calls t' hstate hoptions ht' hlast => ?_⟩
    refine ⟨hstate.trans hstart, hpoint, ?_, ?_⟩
    · rw [ht', ← hstate]
    · rw [hlast]
      simp only [hoptions]
      exact hclock
  | running _ | body _ | innerCatch _ => exact absurd trivial hwindow
  | outerCatch | exited => exact h.elim

/-- Between ticks, a call of `ExecuteAt` finds the same executor in whole ticks, but for its
lifecycle state. -/
theorem Refines.executeAt (h : Refines s t) {state : State}
    (hexec : t.exec = { s.exec with state := state }) {tp : ℤ} {entry : Option Entry}
    {exec : TimeWheelExecutor Call}
    (hcall : s.exec.executeAt tp ⟨s.calls, s.exec.currentTickCount⟩ = .ok (entry, exec)) :
    Timer.step t (.executeAt tp) = some { t with
      exec := { exec with state := state }
      calls := s.calls + 1
      filed := t.filed ++ entry.toList } := by
  simp only [Timer.step, hexec, h.calls, executeAt_withState, hcall]
  rfl

/-- One step of an undisturbed loop is one event in whole ticks, or none. -/
theorem Refines.step {a : Act} (h : Refines s t) (hq : s.Undisturbed a) (hs : Step s a s') :
    ∃ fs t', run Timer.step t fs = some t' ∧ Refines s' t' := by
  have hphase := h.phase
  have hreturned := h.returned
  cases hs with
  | exit hpc hstate =>
    simp only [Phase, hpc] at hphase
    exact absurd (hstate.symm.trans hphase.1) (by simp)
  | enter hpc _ =>
    simp only [Phase, hpc] at hphase
    refine h.silent ?_ rfl rfl (by simp [history, hpc, Pc.rest])
    exact hphase
  | @slice realDt hpc hpoint =>
    simp only [Phase, hpc] at hphase
    obtain ⟨hstate, -, hexec, hclock⟩ := hphase
    refine h.silent ⟨hstate, hpoint, hexec, ?_⟩ rfl rfl (by simp [history, hpc, Pc.rest])
    have hsum := sleepSlice_add s.exec.options.dt realDt
    simp only [Pc.remaining] at hclock ⊢
    omega
  | again hpc _ _ =>
    simp only [Phase, hpc] at hphase
    refine h.silent ?_ rfl rfl (by simp [history, hpc, Pc.rest])
    exact hphase
  | @wake realDt hpc hdone =>
    simp only [Phase, hpc] at hphase
    obtain ⟨hstate, hpoint, hexec, hclock⟩ := hphase
    have hzero : realDt = 0 := hdone.resolve_left (by simp [hstate])
    refine h.silent ⟨hstate, hpoint, hexec, ?_⟩ rfl rfl (by simp [history, hpc, Pc.rest])
    simpa [Pc.remaining, hzero] using hclock
  | @empty exec hpc htake =>
    simp only [Phase, hpc] at hphase
    obtain ⟨hstate, hpoint, -, -⟩ := hphase
    have hrest := (ticks_of_takeTick htake).2
    refine answered (h.tick hpc htake) ⟨?_, h.joining, h.calls, ?_⟩
    · refine ⟨?_, hpoint, rfl, ?_⟩
      · rw [hrest]; exact hstate
      · simp [Pc.remaining]
    · simpa [history, hpc, Pc.rest] using hreturned
  | @taken taskList exec hpc hne htake =>
    simp only [Phase, hpc] at hphase
    obtain ⟨hstate, hpoint, -, -⟩ := hphase
    have hrest := (ticks_of_takeTick htake).2
    refine answered (h.tick hpc htake) ⟨?_, h.joining, h.calls, ?_⟩
    · refine ⟨?_, hpoint, rfl, rfl⟩
      rw [hrest]; exact hstate
    · have hcount : exec.currentTickCount = s.exec.currentTickCount := by rw [hrest]
      simpa [history, hpc, Pc.rest, hcount] using hreturned
  | count hpc =>
    simp only [Phase, hpc] at hphase
    obtain ⟨hstate, hpoint, hexec, hclock⟩ := hphase
    refine h.silent ⟨hstate, hpoint, hexec, ?_⟩ rfl rfl (by simp [history, hpc, Pc.rest])
    simp [Pc.remaining, hclock, TimeWheelExecutor.countTick]
  | begins hpc =>
    simp only [Phase, hpc] at hphase
    refine h.silent ?_ rfl rfl (by simp [history, hpc, Pc.rest])
    exact hphase
  | @clock now hpc hpoint =>
    simp only [Phase, hpc] at hphase
    obtain ⟨hstate, hexec⟩ := hphase
    have hstart : Timer.step t (.start now) = some { t with
        exec := { s.exec with startTimePoint := getTimestampNs now }
        lastLoopTimePoint := now } := by
      simp only [Timer.step, hexec, hpoint, and_self, if_true, ← hstate]
    refine answered hstart ⟨?_, h.joining, h.calls, ?_⟩
    · exact ⟨hstate, hpoint, rfl, rfl⟩
    · simpa [history, hpc, Pc.rest] using hreturned
  | returns hpc | throws hpc | logged hpc =>
    simp only [Phase, hpc] at hphase
    refine h.silent ?_ rfl rfl (by simp [history, hpc, Pc.rest])
    exact hphase
  | outerLogged hpc =>
    simp only [Phase, hpc] at hphase
  | logThrows _ => exact hq.elim
  | @executeAt tp entry exec hcall =>
    have hrest := executeAt_rest hcall
    obtain ⟨state, hexec, hafter⟩ := hphase.executeAt hq
    refine answered (h.executeAt hexec hcall) ⟨?_, h.joining, rfl, ?_⟩
    · exact hafter exec (s.calls + 1) (by rw [hrest]) (by rw [hrest]) rfl rfl
    · rw [hrest]; exact hreturned
  | initializeAgain => exact hq.elim
  | start hstate hpc =>
    simp only [Phase, hpc] at hphase
    obtain ⟨hinit, hexec⟩ := hphase
    refine h.silent ⟨rfl, ?_⟩ rfl rfl (by simp [history, hpc, Pc.rest])
    rw [hexec, ← hinit]
  | startRejected hstate =>
    have hstart : s.exec.state = .start := by
      cases hpc : s.pc <;> simp only [Phase, hpc] at hphase <;> tauto
    have hexec : { s.exec with state := .start } = s.exec := by rw [← hstart]
    rw [hexec]
    exact h.silent hphase rfl rfl rfl
  | shutdownAgain _ | shutdown _ _ => exact hq.elim
  | join hjoining _ => exact absurd (hjoining.symm.trans h.joining) (by simp)

/-- **An undisturbed loop runs whole ticks.** -/
theorem refines_run (hr : run step (initial options) es = some s)
    (hq : AllSteps step Undisturbed (initial options) es) :
    ∃ fs t, run Timer.step (Timer.initial options) fs = some t ∧ Refines s t :=
  run_simulation (fun _ _ _ _ h hq hs => h.step hq (step_cases hs)) refines_initial hq hr

/-- **Every task is run on schedule.** In an undisturbed run of the loop, every task filed in time
is run at its `fireTick`. -/
theorem ran_at_fireTick (hv : ValidSizes options.wheelSize)
    (hr : run step (initial options) es = some s)
    (hq : AllSteps step Undisturbed (initial options) es) :
    ∀ r ∈ s.ran, r.entry.InTime → r.tick = fireTick options.wheelSize r.entry := by
  intro r hmem htime
  obtain ⟨w₀, ws, hsizes⟩ := List.exists_cons_of_ne_nil hv.ne_nil
  obtain ⟨fs, t, ht, hrefines⟩ := refines_run hr hq
  obtain ⟨-, hscheduled⟩ := Timer.scheduled_run hv
    (show options.wheelSize[0]? = some w₀ by simp [hsizes]) ht
  refine hscheduled.returned r.tick r.entry ?_ htime
  rw [hrefines.returned]
  exact List.mem_append_left _ (List.mem_map_of_mem (f := fun r => (r.tick, r.entry)) hmem)

/-- **With one wheel, an undisturbed loop is an agenda** of the tasks filed in time. -/
theorem agenda_of_single {w : ℕ} (hsizes : options.wheelSize = [w]) (hw : 0 < w)
    (hr : run step (initial options) es = some s)
    (hq : AllSteps step Undisturbed (initial options) es) :
    ∃ fs t, run (Agenda.step (fireTick [w])) {} fs = some t.agenda ∧ Refines s t := by
  obtain ⟨evs, t, ht, hrefines⟩ := refines_run hr hq
  obtain ⟨fs, hfs⟩ := Timer.agenda_run (hsizes ▸ .single hw) ht (Timer.inReach_of_single hsizes)
  rw [hsizes] at hfs
  exact ⟨fs, t, hfs, hrefines⟩

end TimerLoop

end Ados.TimeWheel
