import Ados.GuardThread.Response
import Ados.TimeWheel.TimerLoop

/-!
# Tasks handed over to the guard thread

The executors of a manager between the end of its `Start` and the end of its `Shutdown`: the threads
of the time wheel executors and the worker of the guard thread executor. A task of any of them may
call `Execute` of the guard thread executor. The thread that runs the task makes this call, so the
task does not end before the call has returned.

`ExecutorManager::Shutdown` takes the executors in reverse order: the time wheel executors, the last
one first, each to the end of its join, then the guard thread executor, and at last the main thread
executor, which has no thread. Once the thread of a time wheel executor has been joined, none of its
tasks is in an `Execute` call; and the worker makes its last look at `queue_` when none of its own
tasks is. So no call comes too late.

## Main definitions

* `Caller`, `Stage`, `Executors`: who calls `Execute`, where `Shutdown` is, the executors
* `Executors.step`: a step of a thread, of an `Execute` call or of `Shutdown`
* `Executors.HandedOff`: the invariant

## Main results

* `Executors.HandedOff.step`: every step keeps it
* `Executors.handed_off`: when `Shutdown` has returned, every call has been refused or its task run
-/

namespace Ados.GuardThread

/-- The call has not returned. -/
def ExecutePc.live : ExecutePc → Bool
  | .rejected _ | .pushed _ => false
  | _ => true

end Ados.GuardThread

namespace Ados.TimeWheel

/-- The timer thread is in the body of a task. -/
def Pc.inTask : Pc → Bool
  | .body _ => true
  | _ => false

end Ados.TimeWheel

namespace Ados.Core

open Transition
open GuardThread (GuardThreadExecutor)
open TimeWheel (TimerLoop)

/-- Whose task has called `Execute`: the thread of the time wheel executor `i`, or the worker. -/
inductive Caller where
  | timer (i : ℕ)
  | guard
  deriving DecidableEq, Repr

/-- Where `ExecutorManager::Shutdown` is. -/
inductive Stage where
  /-- it has not been called -/
  | running
  /-- before the `Shutdown` of the last one of `left` time wheel executors -/
  | timerShutdown (left : ℕ)
  /-- in the `Shutdown` of the time wheel executor `i`, before its join -/
  | timerJoin (i : ℕ)
  /-- before the `Shutdown` of the guard thread executor -/
  | guardShutdown
  /-- in it, before its notification -/
  | guardNotify
  /-- in it, before its join -/
  | guardJoin
  | returned
  deriving DecidableEq, Repr

/-- The executors with a thread; `callers` tells of each `Execute` call whose task has made it. -/
structure Executors where
  timers : List TimerLoop
  guard : GuardThreadExecutor
  callers : List Caller := []
  stage : Stage := .running

namespace Executors

/-- The step is one of a timer thread or of an `ExecuteAt` call, one of the worker, a new `Execute`
call by a task, the next step of such a call, or the next one of `Shutdown`. -/
inductive Act where
  | timer (i : ℕ) (a : TimeWheel.Act)
  | guard (a : GuardThread.Act)
  | handOff (c : Caller)
  | execute (j : ℕ)
  | shutdown

/-- The thread of the caller is in the body of a task. -/
def runsTask (s : Executors) : Caller → Bool
  | .timer i => s.timers[i]?.any fun c => c.pc.inTask
  | .guard => s.guard.worker.inTask

/-- The task of the caller is in an `Execute` call. -/
def calling (s : Executors) (c : Caller) : Bool :=
  (s.callers.zip s.guard.calls).any fun p => p.1 = c ∧ p.2.pc.live

/-- What may happen to the time wheel executor `i` beside the calls of its manager. -/
def allowsTimer (s : Executors) (i : ℕ) : TimeWheel.Act → Bool
  | .loop | .clock _ | .logReturns | .logThrows | .executeAt _ => true
  | .taskReturns | .taskThrows => !s.calling (.timer i)
  | .initializeAgain | .start | .shutdown | .join => false

/-- What may happen to the guard thread executor beside the calls of its manager. -/
def allowsGuard (s : Executors) : GuardThread.Act → Bool
  | .worker | .wakeUp => true
  | .taskEnds _ => !s.calling .guard
  | _ => false

/-- A step of the time wheel executor `i`. -/
def timerStep (s : Executors) (i : ℕ) (a : TimeWheel.Act) : Option Executors :=
  s.timers[i]?.bind fun c => (c.step a).map fun c' => { s with timers := s.timers.set i c' }

/-- A step of the guard thread executor. -/
def guardStep (s : Executors) (a : GuardThread.Act) : Option Executors :=
  (s.guard.step a).map fun g => { s with guard := g }

/-- The next step of `ExecutorManager::Shutdown`. -/
def shutdownStep (s : Executors) : Option Executors :=
  match s.stage with
  | .running => some { s with stage := .timerShutdown s.timers.length }
  | .timerShutdown 0 => some { s with stage := .guardShutdown }
  | .timerShutdown (i + 1) => { s with stage := .timerJoin i }.timerStep i .shutdown
  | .timerJoin i => { s with stage := .timerShutdown i }.timerStep i .join
  | .guardShutdown => { s with stage := .guardNotify }.guardStep .shutdown
  | .guardNotify => { s with stage := .guardJoin }.guardStep (.shutdownNotify 0)
  | .guardJoin => { s with stage := .returned }.guardStep (.shutdownJoin 0)
  | .returned => none

/-- One step of a thread, of an `Execute` call or of `Shutdown`. -/
def step (s : Executors) : Act → Option Executors
  | .timer i a => if s.allowsTimer i a then s.timerStep i a else none
  | .guard a => if s.allowsGuard a then s.guardStep a else none
  | .handOff c =>
    if s.runsTask c ∧ s.calling c = false then
      { s with callers := s.callers ++ [c] }.guardStep .call
    else none
  | .execute j => s.guardStep (.execute j)
  | .shutdown => s.shutdownStep

/-- The executors when `Start` has called all of them: the timer threads are at their beginning. -/
def started (timers : List TimeWheel.Options) (options : GuardThread.Options) : Executors where
  timers := timers.map fun o =>
    { TimerLoop.initial o with
      exec := { TimeWheel.TimeWheelExecutor.initialized o with state := .start }
      pc := .entered }
  guard := (GuardThreadExecutor.initialized options).start.1

/-! ## The invariant -/

end Executors

/-- The time wheel executor `i` has been shut down. -/
def Stage.Down (i : ℕ) : Stage → Prop
  | .running => False
  | .timerShutdown left => left ≤ i
  | .timerJoin j => j < i
  | _ => True

/-- The `Shutdown` of the guard thread executor has not been called. -/
def Stage.guardUp : Stage → Bool
  | .running | .timerShutdown _ | .timerJoin _ | .guardShutdown => true
  | _ => false

namespace Executors

variable {s t : Executors} {a : Act} {es : List Act} {c : Caller} {i j : ℕ}

/-- Whose calls are running, and what has been shut down. A call that has not returned is the last
one of its caller, whose task is running; the calls of one caller push in their order. -/
structure HandedOff (s : Executors) : Prop where
  drained : s.guard.Drained
  lively : s.guard.Lively
  length : s.callers.length = s.guard.calls.length
  owned : ∀ (j : ℕ) (c : Caller) (k : GuardThread.ExecuteCall), s.callers[j]? = some c →
    s.guard.calls[j]? = some k → k.pc.live = true → s.runsTask c = true
  latest : ∀ (j j' : ℕ) (c : Caller) (k : GuardThread.ExecuteCall), s.callers[j]? = some c →
    s.callers[j']? = some c → s.guard.calls[j']? = some k → k.pc.live = true → j ≤ j'
  sorted : ∀ c, (s.guard.pushed.filter fun j => s.callers[j]? = some c).Pairwise (· < ·)
  guardUp : s.stage.guardUp = true → s.guard.state = .start ∧ s.guard.shutdowns = []
  down : ∀ i, s.stage.Down i → ∀ x, s.timers[i]? = some x → x.pc = .noThread
  returned : s.stage = .returned → .returned ∈ s.guard.shutdowns

theorem started_handedOff {timers : List TimeWheel.Options} {options : GuardThread.Options} :
    HandedOff (started timers options) := by
  have hlive : (GuardThreadExecutor.initialized options).Lively :=
    GuardThreadExecutor.lively_new.step (a := .initializeWith options) (Or.inl rfl)
      (.initializes rfl)
  refine ⟨?_, ?_, rfl, ?_, ?_, ?_, ?_, ?_, nofun⟩
  · exact GuardThreadExecutor.drained_initialized.step (a := .start) id .start
  · exact hlive.step (a := .start) (Or.inl rfl) .start
  · simp [started]
  · simp [started]
  · simp [started, GuardThreadExecutor.start, GuardThreadExecutor.initialized,
      GuardThreadExecutor.initializeWith]
  · simp [started, GuardThreadExecutor.start, GuardThreadExecutor.initialized,
      GuardThreadExecutor.initializeWith]
  · simp [started, Stage.Down]


/-- A caller that is in no call has no call that has not returned. -/
theorem not_live_of_not_calling (h : s.calling c = false) {k : GuardThread.ExecuteCall}
    (hc : s.callers[j]? = some c) (hk : s.guard.calls[j]? = some k) : k.pc.live = false := by
  have hmem : (c, k) ∈ s.callers.zip s.guard.calls :=
    List.mem_of_getElem? (List.getElem?_zip_eq_some.mpr ⟨hc, hk⟩)
  simp only [calling, List.any_eq_false, decide_eq_true_eq, not_and, Bool.not_eq_true] at h
  exact h (c, k) hmem rfl

/-- The worker does not go on while its task is in a call. -/
theorem inTask_of_allowsGuard {a : GuardThread.Act} {g : GuardThreadExecutor}
    (hallows : s.allowsGuard a = true) (hs : GuardThreadExecutor.Step s.guard a g)
    (htask : s.guard.worker.inTask = true) : s.calling .guard = false := by
  have hbusy : ∀ w, s.guard.worker = w → w.inTask = true := fun w heq => heq ▸ htask
  cases hs with
  | ends _ | drainEnds _ => simpa [allowsGuard] using hallows
  | leaves hw _ | waits hw _ | takes hw _ | sleeps hw _ _ | batchEnds hw | begins hw | finishes hw
  | exits hw _ | drains hw _ | pops hw | wakeUp hw => exact absurd (hbusy _ hw) (by
      simp [GuardThread.Worker.inTask])
  | _ => simp [allowsGuard] at hallows

/-- The steps of the worker and of its tasks are no steps of calls. -/
theorem rest_of_allowsGuard {a : GuardThread.Act} {g : GuardThreadExecutor}
    (hallows : s.allowsGuard a = true) (hs : GuardThreadExecutor.Step s.guard a g) :
    (¬ s.guard.PushesLate a ∧ s.guard.Harmless a) ∧ g.calls = s.guard.calls ∧
      g.pushed = s.guard.pushed ∧ g.state = s.guard.state ∧ g.shutdowns = s.guard.shutdowns := by
  refine ⟨?_, ?_⟩
  · cases a <;> simp_all [allowsGuard, GuardThreadExecutor.PushesLate,
      GuardThreadExecutor.Harmless]
  · cases hs <;> first | exact ⟨rfl, rfl, rfl, rfl⟩ | simp [allowsGuard] at hallows

/-- The timer thread does not go on while its task is in a call. -/
theorem inTask_of_allowsTimer {a : TimeWheel.Act} {x x' : TimerLoop}
    (hallows : s.allowsTimer i a = true) (hcalling : s.calling (.timer i) = true)
    (hs : TimerLoop.Step x a x') (htask : x.pc.inTask = true) : x'.pc.inTask = true := by
  have hbusy : ∀ pc, x.pc = pc → pc.inTask = true := fun pc heq => heq ▸ htask
  cases hs with
  | executeAt _ => exact htask
  | returns _ | throws _ => simp [allowsTimer, hcalling] at hallows
  | exit hpc _ | enter hpc _ | slice hpc _ | again hpc _ _ | wake hpc _ | empty hpc _
  | taken hpc _ _ | count hpc | begins hpc | clock hpc _ | logged hpc | outerLogged hpc
  | logThrows hpc => exact absurd (hbusy _ hpc) (by simp [TimeWheel.Pc.inTask])
  | _ => simp [allowsTimer] at hallows

/-- A timer thread that has been joined stays so. -/
theorem noThread_of_allowsTimer {a : TimeWheel.Act} {x x' : TimerLoop}
    (hallows : s.allowsTimer i a = true) (hs : TimerLoop.Step x a x') (hpc : x.pc = .noThread) :
    x'.pc = .noThread := by
  cases hs with
  | executeAt _ => exact hpc
  | exit hpc' _ | enter hpc' _ | slice hpc' _ | again hpc' _ _ | wake hpc' _ | empty hpc' _
  | taken hpc' _ _ | count hpc' | begins hpc' | clock hpc' _ | returns hpc' | throws hpc'
  | logged hpc' | outerLogged hpc' | logThrows hpc' => exact absurd (hpc.symm.trans hpc') (by simp)
  | _ => simp [allowsTimer] at hallows

/-! ## Steps -/

/-- A time wheel executor goes on, which does not end the task that is in a call. -/
theorem HandedOff.setTimer (h : HandedOff s) {x x' : TimerLoop} {stage : Stage}
    (hx : s.timers[i]? = some x)
    (htask : s.calling (.timer i) = true → x.pc.inTask = true → x'.pc.inTask = true)
    (hup : stage.guardUp = true → s.stage.guardUp = true)
    (hdown : ∀ j, stage.Down j → s.stage.Down j ∨ j = i) (hpc : stage.Down i → x'.pc = .noThread)
    (hret : stage = .returned → s.stage = .returned) :
    HandedOff { s with timers := s.timers.set i x', stage := stage } := by
  obtain ⟨hlt, -⟩ := List.getElem?_eq_some_iff.mp hx
  refine ⟨h.drained, h.lively, h.length, ?_, h.latest, h.sorted, fun hg => h.guardUp (hup hg), ?_,
    fun hr => h.returned (hret hr)⟩
  · intro j c k hc hk hlive
    have hrun := h.owned j c k hc hk hlive
    cases c with
    | guard => exact hrun
    | timer i' =>
      by_cases hi : i = i'
      · subst hi
        have hcalling : s.calling (.timer i) = true := by
          by_contra hnot
          have hdead := not_live_of_not_calling (eq_false_of_ne_true hnot) hc hk
          simp [hdead] at hlive
        simp only [runsTask, hx, Option.any_some, List.getElem?_set_self hlt] at hrun ⊢
        exact htask hcalling hrun
      · simpa only [runsTask, List.getElem?_set_ne hi] using hrun
  · intro j hj y hy
    by_cases hi : i = j
    · subst hi
      obtain rfl : x' = y := by simpa [List.getElem?_set_self hlt] using hy
      exact hpc hj
    · rw [List.getElem?_set_ne hi] at hy
      exact h.down j ((hdown j hj).resolve_right fun heq => hi heq.symm) y hy

theorem timerStep_eq_some {a : TimeWheel.Act} (hs : s.timerStep i a = some t) :
    ∃ x x', s.timers[i]? = some x ∧ TimerLoop.Step x a x' ∧
      t = { s with timers := s.timers.set i x' } := by
  obtain ⟨x, hx, hs⟩ := Option.bind_eq_some_iff.mp hs
  obtain ⟨x', hx', rfl⟩ := Option.map_eq_some_iff.mp hs
  exact ⟨x, x', hx, TimerLoop.step_cases hx', rfl⟩

theorem guardStep_eq_some {a : GuardThread.Act} (hs : s.guardStep a = some t) :
    ∃ g, GuardThreadExecutor.Step s.guard a g ∧ t = { s with guard := g } := by
  obtain ⟨g, hg, rfl⟩ := Option.map_eq_some_iff.mp hs
  exact ⟨g, GuardThreadExecutor.step_cases hg, rfl⟩

/-- The guard thread executor goes on, without a step of an `Execute` call. -/
theorem HandedOff.withGuard (h : HandedOff s) {a : GuardThread.Act} {g : GuardThreadExecutor}
    {stage : Stage} (hs : GuardThreadExecutor.Step s.guard a g) (hlate : ¬ s.guard.PushesLate a)
    (hharmless : s.guard.Harmless a) (hcalls : g.calls = s.guard.calls)
    (hpushed : g.pushed = s.guard.pushed)
    (htask : s.calling .guard = true → s.guard.worker.inTask = true → g.worker.inTask = true)
    (hup : stage.guardUp = true → g.state = .start ∧ g.shutdowns = [])
    (hdown : ∀ j, stage.Down j → s.stage.Down j)
    (hret : stage = .returned → .returned ∈ g.shutdowns) :
    HandedOff { s with guard := g, stage := stage } := by
  refine ⟨h.drained.step hlate hs, h.lively.step hharmless hs, ?_, ?_, ?_, ?_, hup,
    fun j hj => h.down j (hdown j hj), hret⟩
  · rw [hcalls]
    exact h.length
  · intro j c k hc hk hlive
    rw [hcalls] at hk
    have hrun := h.owned j c k hc hk hlive
    cases c with
    | timer i => exact hrun
    | guard =>
      have hcalling : s.calling .guard = true := by
        by_contra hnot
        have hdead := not_live_of_not_calling (eq_false_of_ne_true hnot) hc hk
        simp [hdead] at hlive
      exact htask hcalling hrun
  · rw [hcalls]
    exact h.latest
  · rw [hpushed]
    exact h.sorted

theorem Stage.down_of_guardUp {stage : Stage} (h : stage.guardUp = false) (i : ℕ) :
    stage.Down i := by
  cases stage <;> simp_all [Stage.guardUp, Stage.Down]

/-- No call pushes its task after the worker has exited: its caller would be running a task. -/
theorem HandedOff.not_pushesLate (h : HandedOff s) : ¬ s.guard.PushesLate (.execute j) := by
  rintro ⟨hexited, k, cur, hk, hpc⟩
  have hup : s.stage.guardUp = false := by
    by_contra hup
    have hstate := (h.guardUp (by simpa using hup)).1
    have hloop := h.lively.inLoop (Or.inr hstate)
    simp [hexited, GuardThread.Worker.InLoop] at hloop
  have hlt : j < s.callers.length := h.length ▸ (List.getElem?_eq_some_iff.mp hk).1
  obtain ⟨c, hc⟩ : ∃ c, s.callers[j]? = some c := ⟨_, List.getElem?_eq_getElem hlt⟩
  have hrun := h.owned j c k hc hk (by simp [hpc, GuardThread.ExecutePc.live])
  cases c with
  | guard => simp [runsTask, hexited, GuardThread.Worker.inTask] at hrun
  | timer i =>
    obtain ⟨x, hx, htask⟩ := (Option.any_eq_true _ _).mp hrun
    simp [h.down i (Stage.down_of_guardUp hup i) x hx, TimeWheel.Pc.inTask] at htask

/-- A call that has not returned goes on. -/
theorem HandedOff.setCall (h : HandedOff s) {k : GuardThread.ExecuteCall}
    {pc : GuardThread.ExecutePc} {g : GuardThreadExecutor}
    (hk : s.guard.calls[j]? = some k) (hlive : k.pc.live = true)
    (hs : GuardThreadExecutor.Step s.guard (.execute j) g) (hcalls : g.calls = s.guard.move j k pc)
    (hworker : g.worker.inTask = s.guard.worker.inTask)
    (hpushed : g.pushed = s.guard.pushed ∨ g.pushed = s.guard.pushed ++ [k.task])
    (hstate : g.state = s.guard.state) (hshutdowns : g.shutdowns = s.guard.shutdowns) :
    HandedOff { s with guard := g } := by
  have hold : ∀ {j' : ℕ} {k' : GuardThread.ExecuteCall}, g.calls[j']? = some k' →
      k'.pc.live = true → ∃ k'' : GuardThread.ExecuteCall,
        s.guard.calls[j']? = some k'' ∧ k''.pc.live = true := by
    intro j' k' hk' hlive'
    rw [hcalls, GuardThreadExecutor.move, List.getElem?_set] at hk'
    split at hk'
    · next heq => exact ⟨k, heq ▸ hk, hlive⟩
    · exact ⟨k', hk', hlive'⟩
  refine ⟨h.drained.step h.not_pushesLate hs, h.lively.step (a := .execute j) trivial hs, ?_, ?_,
    ?_, ?_, ?_, h.down, fun hret => hshutdowns ▸ h.returned hret⟩
  · rw [hcalls, GuardThreadExecutor.move, List.length_set]
    exact h.length
  · intro j' c k' hc hk' hlive'
    obtain ⟨k'', hk'', hlive''⟩ := hold hk' hlive'
    have hrun := h.owned j' c k'' hc hk'' hlive''
    cases c with
    | timer i => exact hrun
    | guard => exact hworker.trans hrun
  · intro i j' c k' hi hj' hk' hlive'
    obtain ⟨k'', hk'', hlive''⟩ := hold hk' hlive'
    exact h.latest i j' c k'' hi hj' hk'' hlive''
  · intro c
    rcases hpushed with hsame | happend
    · rw [hsame]
      exact h.sorted c
    · rw [happend, List.filter_append, List.pairwise_append]
      refine ⟨h.sorted c, ?_, ?_⟩
      · exact (List.pairwise_singleton _ _).sublist List.filter_sublist
      · intro i hi m hm
        obtain ⟨hi, hci⟩ := List.mem_filter.mp hi
        obtain ⟨hm, hcm⟩ := List.mem_filter.mp hm
        obtain rfl : m = j := (List.mem_singleton.mp hm).trans (h.drained.numbered.task j k hk)
        apply lt_of_le_of_ne
        · exact h.latest i m c k (by simpa using hci) (by simpa using hcm) hk hlive
        · rintro rfl
          obtain ⟨cur, hcur⟩ := h.drained.numbered.pushed i hi
          obtain rfl := Option.some.inj (hk.symm.trans hcur)
          simp [GuardThread.ExecutePc.live] at hlive
  · intro hup
    rw [hstate, hshutdowns]
    exact h.guardUp hup

@[simp] theorem notified_inTask (w : GuardThread.Worker) :
    (GuardThreadExecutor.notified w).inTask = w.inTask := by
  cases w <;> rfl

theorem HandedOff.execute (h : HandedOff s) {g : GuardThreadExecutor}
    (hs : GuardThreadExecutor.Step s.guard (.execute j) g) : HandedOff { s with guard := g } := by
  have hlive : ∀ {k : GuardThread.ExecuteCall} (pc), k.pc = pc → pc.live = true →
      k.pc.live = true := by
    rintro k _ rfl hpc
    exact hpc
  cases id hs with
  | load hk hpc | increment hk hpc | refuse hk hpc _ | accept hk hpc _ | reject hk hpc =>
    exact h.setCall hk (hlive _ hpc rfl) hs rfl rfl (Or.inl rfl) rfl rfl
  | push hk hpc =>
    exact h.setCall hk (hlive _ hpc rfl) hs rfl (notified_inTask _) (Or.inr rfl) rfl rfl

/-- A list and one more element, read at an index. -/
theorem getElem?_concat {α : Type*} {l : List α} {x y : α} (h : (l ++ [x])[j]? = some y) :
    l[j]? = some y ∨ j = l.length ∧ y = x := by
  rw [List.getElem?_append] at h
  split at h
  · exact Or.inl h
  · next hlt =>
    obtain ⟨hj, hy⟩ := List.getElem?_eq_some_iff.mp h
    rw [List.length_singleton] at hj
    exact Or.inr ⟨by omega, by simpa using hy.symm⟩

/-- A task makes a call, its caller having no other call that has not returned. -/
theorem HandedOff.handOff (h : HandedOff s) {g : GuardThreadExecutor} (hrun : s.runsTask c = true)
    (hcalling : s.calling c = false) (hs : GuardThreadExecutor.Step s.guard .call g) :
    HandedOff { s with callers := s.callers ++ [c], guard := g } := by
  have hdrained := h.drained.step id hs
  have hlively := h.lively.step (a := .call) trivial hs
  cases hs
  have hdead : ∀ (j : ℕ) (k : GuardThread.ExecuteCall), s.callers[j]? = some c →
      s.guard.calls[j]? = some k → k.pc.live = false :=
    fun j k hc hk => not_live_of_not_calling hcalling hc hk
  refine ⟨hdrained, hlively, ?_, ?_, ?_, ?_, h.guardUp, h.down, h.returned⟩
  · simp [h.length]
  · intro j c' k hc hk hlive
    rcases getElem?_concat hk with hk | ⟨rfl, rfl⟩
    · have hlt := (List.getElem?_eq_some_iff.mp hk).1
      rw [List.getElem?_append_left (h.length ▸ hlt)] at hc
      exact h.owned j c' k hc hk hlive
    · rw [← h.length, List.getElem?_concat_length] at hc
      cases hc
      exact hrun
  · intro j j' c' k hj hj' hk hlive
    rcases getElem?_concat hk with hold | ⟨rfl, rfl⟩
    · have hlt := (List.getElem?_eq_some_iff.mp hold).1
      rw [List.getElem?_append_left (h.length ▸ hlt)] at hj'
      rcases getElem?_concat hj with hj | ⟨rfl, rfl⟩
      · exact h.latest j j' c' k hj hj' hold hlive
      · simp [hdead j' k hj' hold] at hlive
    · have hlt := (List.getElem?_eq_some_iff.mp hj).1
      rw [List.length_append, List.length_singleton, h.length] at hlt
      omega
  · intro c'
    have hfilter : (s.guard.pushed.filter fun j => (s.callers ++ [c])[j]? = some c') =
        s.guard.pushed.filter fun j => s.callers[j]? = some c' := by
      refine List.filter_congr fun j hj => ?_
      obtain ⟨cur, hcur⟩ := h.drained.numbered.pushed j hj
      have hlt := (List.getElem?_eq_some_iff.mp hcur).1
      rw [List.getElem?_append_left (h.length ▸ hlt)]
    rw [hfilter]
    exact h.sorted c'

/-- `Shutdown` goes on to its next executor. -/
theorem HandedOff.withStage (h : HandedOff s) {stage : Stage}
    (hup : stage.guardUp = true → s.stage.guardUp = true)
    (hdown : ∀ i, stage.Down i → s.stage.Down i ∨ s.timers.length ≤ i) (hret : stage ≠ .returned) :
    HandedOff { s with stage := stage } := by
  refine ⟨h.drained, h.lively, h.length, h.owned, h.latest, h.sorted, fun hg => h.guardUp (hup hg),
    fun i hi x hx => ?_, fun hr => absurd hr hret⟩
  rcases hdown i hi with hi | hi
  · exact h.down i hi x hx
  · rw [List.getElem?_eq_none hi] at hx
    cases hx

/-- A step of `Shutdown`. When it comes to an executor, the time wheel executors before it are down,
and a thread that can be joined is in no task. -/
theorem HandedOff.shutdown (h : HandedOff s) (hs : s.shutdownStep = some t) : HandedOff t := by
  unfold shutdownStep at hs
  split at hs
  · next hstage =>
    cases hs
    exact h.withStage (by simp [hstage, Stage.guardUp]) (fun i hi => Or.inr hi)
      (by simp)
  · next hstage =>
    cases hs
    exact h.withStage (by simp [hstage, Stage.guardUp])
      (fun i _ => Or.inl (by simp [hstage, Stage.Down])) (by simp)
  · next i hstage =>
    obtain ⟨x, x', hx, hstep, rfl⟩ := timerStep_eq_some hs
    have hpc : x'.pc = x.pc := by cases hstep <;> rfl
    refine h.setTimer hx (fun _ => by simp [hpc]) (by simp [hstage, Stage.guardUp]) (fun j hj => ?_)
      (fun hi => ?_) nofun
    · simp only [hstage, Stage.Down] at hj ⊢
      omega
    · simp [Stage.Down] at hi
  · next i hstage =>
    obtain ⟨x, x', hx, hstep, rfl⟩ := timerStep_eq_some hs
    cases hstep with
    | join _ hpc =>
      refine h.setTimer hx (fun _ htask => ?_) (by simp [hstage, Stage.guardUp]) (fun j hj => ?_)
        (fun _ => rfl) nofun
      · rcases hpc with hpc | hpc <;> simp [hpc, TimeWheel.Pc.inTask] at htask
      · simp only [hstage, Stage.Down] at hj ⊢
        omega
  · next hstage =>
    obtain ⟨g, hstep, rfl⟩ := guardStep_eq_some hs
    refine h.withGuard hstep id trivial ?_ ?_ ?_ nofun (fun j _ => by simp [hstage, Stage.Down])
      nofun
    all_goals cases hstep <;> simp
  · next hstage =>
    obtain ⟨g, hstep, rfl⟩ := guardStep_eq_some hs
    cases id hstep
    exact h.withGuard hstep id trivial rfl rfl (by simp) nofun
      (fun j _ => by simp [hstage, Stage.Down]) nofun
  · next hstage =>
    obtain ⟨g, hstep, rfl⟩ := guardStep_eq_some hs
    cases id hstep with
    | shutdownJoin hjoin _ =>
      have hlt := (List.getElem?_eq_some_iff.mp hjoin).1
      exact h.withGuard hstep id trivial rfl rfl (by simp) nofun
        (fun j _ => by simp [hstage, Stage.Down]) fun _ => List.mem_set hlt _
  · cases hs

/-- **Every step keeps the calls in order.** -/
theorem HandedOff.step (h : HandedOff s) (hs : Executors.step s a = some t) : HandedOff t := by
  cases a with
  | timer i a =>
    simp only [Executors.step] at hs
    split at hs
    · next hallows =>
      obtain ⟨x, x', hx, hstep, rfl⟩ := timerStep_eq_some hs
      exact h.setTimer hx (fun hcalling => inTask_of_allowsTimer hallows hcalling hstep) id
        (fun _ => Or.inl)
        (fun hdown => noThread_of_allowsTimer hallows hstep (h.down i hdown x hx)) id
    · cases hs
  | guard a =>
    simp only [Executors.step] at hs
    split at hs
    · next hallows =>
      obtain ⟨g, hstep, rfl⟩ := guardStep_eq_some hs
      obtain ⟨⟨hlate, hharmless⟩, hcalls, hpushed, hstate, hshutdowns⟩ :=
        rest_of_allowsGuard hallows hstep
      refine h.withGuard hstep hlate hharmless hcalls hpushed (fun hcalling htask => ?_)
        (fun hup => ?_) (fun _ => id) fun hret => hshutdowns ▸ h.returned hret
      · simp [inTask_of_allowsGuard hallows hstep htask] at hcalling
      · rw [hstate, hshutdowns]
        exact h.guardUp hup
    · cases hs
  | handOff c =>
    simp only [Executors.step] at hs
    split at hs
    · next hmay =>
      obtain ⟨g, hstep, rfl⟩ := guardStep_eq_some hs
      exact h.handOff hmay.1 hmay.2 hstep
    · cases hs
  | execute j =>
    obtain ⟨g, hstep, rfl⟩ := guardStep_eq_some hs
    exact h.execute hstep
  | shutdown => exact h.shutdown hs

/-- **What is handed over is run.** When the manager's `Shutdown` has returned, every `Execute`
call that a task of a time wheel executor or of the guard thread executor has made has returned; it
has been refused, or its task has been run. The tasks run are those pushed, each once and in the
order of the pushes; those of one caller are run in the order of its calls. -/
theorem handed_off {timers : List TimeWheel.Options} {options : GuardThread.Options}
    (hr : run Executors.step (started timers options) es = some s)
    (hstage : s.stage = .returned) :
    (∀ k ∈ s.guard.calls, (∃ cur, k.pc = .rejected cur) ∨
      ∃ cur, k.pc = .pushed cur ∧ k.task ∈ s.guard.ended.map Prod.fst) ∧
    s.guard.ended.map Prod.fst = s.guard.pushed ∧ s.guard.pushed.Nodup ∧
    ∀ c, ((s.guard.ended.map Prod.fst).filter fun j => s.callers[j]? = some c).Pairwise
      (· < ·) := by
  have h : HandedOff s := run_invariant (fun _ _ _ hs ht => hs.step ht) started_handedOff hr
  have hexited := h.drained.joined.exited (h.returned hstage)
  obtain ⟨hempty, hpushed⟩ := h.drained.noneStranded (h.returned hstage)
  have hended : s.guard.ended.map Prod.fst = s.guard.pushed := by
    have horder := h.drained.order.order
    have hbegun := h.drained.order.ended
    rw [hexited] at horder hbegun
    simp only [GuardThread.Worker.current, GuardThread.Worker.unbegun,
      GuardThreadExecutor.waiting, hexited, hempty, GuardThread.Worker.drainFront,
      List.append_nil, List.tail_nil, ite_self] at horder hbegun
    exact hbegun.symm.trans horder
  refine ⟨fun k hk => ?_, hended, h.drained.numbered.nodup, fun c => hended ▸ h.sorted c⟩
  obtain ⟨j, hj⟩ := List.mem_iff_getElem?.mp hk
  have hlive : k.pc.live = false := by
    by_contra hlive
    have hlt : j < s.callers.length := h.length ▸ (List.getElem?_eq_some_iff.mp hj).1
    have hrun := h.owned j _ k (List.getElem?_eq_getElem hlt) hj (by simpa using hlive)
    cases hc : s.callers[j] with
    | guard => simp [runsTask, hc, hexited, GuardThread.Worker.inTask] at hrun
    | timer i =>
      rw [hc] at hrun
      obtain ⟨x, hx, htask⟩ := (Option.any_eq_true _ _).mp hrun
      have hdown : s.stage.Down i := by simp [hstage, Stage.Down]
      simp [h.down i hdown x hx, TimeWheel.Pc.inTask] at htask
  cases hpc : k.pc with
  | rejected cur => exact Or.inl ⟨cur, rfl⟩
  | pushed cur => exact Or.inr ⟨cur, rfl, hpushed k hk cur hpc⟩
  | load | increment | compare | reject | push => simp [hpc, GuardThread.ExecutePc.live] at hlive

/-- A task of a time wheel executor hands one over, which the worker runs in its drain. -/
theorem handed_off_drained :
    ∃ s, run Executors.step (started [{ dt := 10, wheelSize := [2] }] {})
        [.timer 0 (.clock 0), .timer 0 (.executeAt 5), .timer 0 .loop, .timer 0 .loop,
          .timer 0 .loop, .timer 0 .loop, .timer 0 .loop, .handOff (.timer 0), .execute 0,
          .execute 0, .execute 0, .execute 0, .timer 0 .taskReturns, .timer 0 .loop, .shutdown,
          .shutdown, .timer 0 .loop, .shutdown, .shutdown, .shutdown, .guard .worker,
          .guard .worker, .guard (.taskEnds false), .guard .worker, .guard .worker, .shutdown,
          .shutdown] = some s ∧ s.stage = .returned ∧ s.guard.ended.map Prod.fst = s.guard.pushed ∧
      s.guard.pushed = [0] := by
  have h : ((run Executors.step (started [{ dt := 10, wheelSize := [2] }] {})
        [.timer 0 (.clock 0), .timer 0 (.executeAt 5), .timer 0 .loop, .timer 0 .loop,
          .timer 0 .loop, .timer 0 .loop, .timer 0 .loop, .handOff (.timer 0), .execute 0,
          .execute 0, .execute 0, .execute 0, .timer 0 .taskReturns, .timer 0 .loop, .shutdown,
          .shutdown, .timer 0 .loop, .shutdown, .shutdown, .shutdown, .guard .worker,
          .guard .worker, .guard (.taskEnds false), .guard .worker, .guard .worker, .shutdown,
          .shutdown]).map fun s => (s.stage, s.guard.pushed)) = some (.returned, [0]) := by
    decide +kernel
  obtain ⟨s, hs, hval⟩ := Option.map_eq_some_iff.mp h
  obtain ⟨hstage, hpushed⟩ := Prod.mk.inj hval
  exact ⟨s, hs, hstage, (handed_off hs hstage).2.1, hpushed⟩

end Executors

end Ados.Core
