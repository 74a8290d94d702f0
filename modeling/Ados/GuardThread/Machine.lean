import Ados.Lib.Run
import Mathlib.Algebra.Order.Ring.Nat

/-!
# The guard thread executor, step by step

A `GuardThreadExecutor` with its worker thread, any number of `Execute` calls and any number of
`Shutdown` calls, interleaved. A step is one access to the shared state: a load or an exchange of
`state_`, an increment or a decrement of `queue_task_num_`, a critical section of `mutex_`, the
beginning and the end of a task, or a step of the worker's unlocked drain. A notification moves a
sleeping worker back to the test of its predicate, and so does a spurious wake-up. A task may call
`Execute` itself; that is one more call.

Tasks are known by the number of the `Execute` call that brought them, and each returns or throws a
`std::exception`. Logging is left out: a logger that throws leaves a `noexcept` function or the
thread and ends the process. `Execute` logs an error when `state_` is not `kStart`, and goes on.

## Main definitions

* `Options`, `State`, `GuardThreadExecutor`: the options, the lifecycle states, the executor
* `ExecuteCall`, `Worker`, `ShutdownPc`: where the calls and the worker are
* `Act`, `step`, `Step`: the steps, and what each can do

## Main results

* `step_cases`: every step is one of those
-/

namespace Ados.GuardThread

/-- The lifecycle states `kPreInit`, `kInit`, `kStart` and `kShutdown`. -/
inductive State where
  | preInit
  | init
  | start
  | shutdown
  deriving DecidableEq, Repr

/-- `GuardThreadExecutor::Options`, the threshold being an unsigned 32-bit integer. -/
structure Options where
  threadSchedPolicy : String := ""
  threadBindCpu : List ℕ := []
  queueThreshold : ℕ := 10000
  queueThreshold_lt : queueThreshold < 2 ^ 32 := by decide

/-- The comparison of the new count with the thresholds. -/
inductive Verdict where
  | reject
  | warn
  | pass
  deriving DecidableEq, Repr

/-- `Execute` rejects above the threshold and warns above the warn threshold. -/
def verdict (queueThreshold queueWarnThreshold cur : ℕ) : Verdict :=
  if queueThreshold < cur then .reject else if queueWarnThreshold < cur then .warn else .pass

/-- Where a call of `Execute` is; `cur` is the count that its increment returned. -/
inductive ExecutePc where
  /-- before the load of `state_` -/
  | load
  /-- before the increment -/
  | increment
  /-- before the comparison with the thresholds -/
  | compare (cur : ℕ)
  /-- before the decrement of a rejected call -/
  | reject (cur : ℕ)
  /-- before the critical section that pushes the task -/
  | push (cur : ℕ)
  | rejected (cur : ℕ)
  | pushed (cur : ℕ)
  deriving DecidableEq, Repr

structure ExecuteCall where
  task : ℕ
  pc : ExecutePc
  deriving DecidableEq, Repr

/-- Where the worker is. The lists are the tasks of `tmp_queue` behind the one at its front. -/
inductive Worker where
  /-- there is no thread -/
  | notCreated
  /-- at the condition of the main loop -/
  | head
  /-- before the critical section that tests the predicate of the wait -/
  | wait
  /-- waiting, and not notified -/
  | asleep
  /-- at the condition of the loop over `tmp_queue` -/
  | batch (tmpQueue : List ℕ)
  /-- in the body of the front task of `tmp_queue` -/
  | running (task : ℕ) (rest : List ℕ)
  /-- after it, before the end of its iteration -/
  | finished (task : ℕ) (rest : List ℕ) (threw : Bool)
  /-- at the condition of the final loop over `queue_` -/
  | drain
  /-- in the body of the front task of `queue_` -/
  | draining (task : ℕ)
  /-- after it, before the end of its iteration -/
  | drained (task : ℕ) (threw : Bool)
  | exited
  deriving DecidableEq, Repr

/-- Where a call of `Shutdown` is that has passed its exchange. -/
inductive ShutdownPc where
  | notify
  | join
  | returned
  deriving DecidableEq, Repr

/-- The members of a `GuardThreadExecutor`, its threads, and the history: the tasks pushed, the
tasks begun, and the tasks that have returned (`false`) or thrown (`true`). -/
structure GuardThreadExecutor where
  options : Options := {}
  queueWarnThreshold : ℕ := 0
  state : State := .preInit
  queueTaskNum : ℕ := 0
  queue : List ℕ := []
  worker : Worker := .notCreated
  calls : List ExecuteCall := []
  shutdowns : List ShutdownPc := []
  pushed : List ℕ := []
  begun : List ℕ := []
  ended : List (ℕ × Bool) := []

inductive Act where
  | initializeWith (options : Options)
  | start
  | shutdown
  | shutdownNotify (i : ℕ)
  | shutdownJoin (i : ℕ)
  /-- a new call of `Execute` -/
  | call
  /-- the next step of the call `i` -/
  | execute (i : ℕ)
  /-- the next step of the worker, outside the bodies of tasks -/
  | worker
  /-- the task that the worker runs returns or throws -/
  | taskEnds (threw : Bool)
  /-- a spurious wake-up -/
  | wakeUp

namespace GuardThreadExecutor

/-- `++queue_task_num_`, in 32 bits. -/
@[irreducible] def incremented (s : GuardThreadExecutor) : ℕ := (s.queueTaskNum + 1) % 2 ^ 32

/-- `--queue_task_num_`, in 32 bits. -/
@[irreducible] def decremented (s : GuardThreadExecutor) : ℕ :=
  (s.queueTaskNum + (2 ^ 32 - 1)) % 2 ^ 32

/-- `cond_.notify_one()`. -/
def notified : Worker → Worker
  | .asleep => .wait
  | w => w

/-- `Initialize` with the options decoded from its node, and the message of the exception if it
throws. The new state is written before the old one is tested. The warn threshold is the product
with `0.95`, rounded down. -/
def initializeWith (s : GuardThreadExecutor) (options : Options) :
    GuardThreadExecutor × Option String :=
  if s.state = .preInit then
    ({ s with
        state := .init
        options := options
        queueWarnThreshold := options.queueThreshold * 95 / 100
        worker := .head }, none)
  else ({ s with state := .init }, some "GuardThreadExecutor can only be initialized once.")

/-- `Start`, with the message of the exception if it throws. -/
def start (s : GuardThreadExecutor) : GuardThreadExecutor × Option String :=
  ({ s with state := .start },
    if s.state = .init then none
    else some "GuardThreadExecutor can only run when state is 'Init'.")

/-- A new executor after its first `Initialize`. -/
def initialized (options : Options) : GuardThreadExecutor := (initializeWith {} options).1

/-- The next step of a call of `Execute`. -/
def executeStep (s : GuardThreadExecutor) (i : ℕ) : Option GuardThreadExecutor :=
  match s.calls[i]? with
  | none => none
  | some c =>
    let move (pc : ExecutePc) : GuardThreadExecutor :=
      { s with calls := s.calls.set i { c with pc := pc } }
    match c.pc with
    | .load => some (move .increment)
    | .increment =>
      some { move (.compare s.incremented) with queueTaskNum := s.incremented }
    | .compare cur =>
      match verdict s.options.queueThreshold s.queueWarnThreshold cur with
      | .reject => some (move (.reject cur))
      | _ => some (move (.push cur))
    | .reject cur => some { move (.rejected cur) with queueTaskNum := s.decremented }
    | .push cur =>
      some { move (.pushed cur) with
        queue := s.queue ++ [c.task]
        worker := notified s.worker
        pushed := s.pushed ++ [c.task] }
    | _ => none

/-- The next step of the worker, outside the bodies of tasks. -/
def workerStep (s : GuardThreadExecutor) : Option GuardThreadExecutor :=
  match s.worker with
  | .head =>
    if s.state = .shutdown then some { s with worker := .drain }
    else some { s with worker := .wait }
  | .wait =>
    if s.queue ≠ [] ∨ s.state = .shutdown then
      some { s with worker := .batch s.queue, queue := [] }
    else some { s with worker := .asleep }
  | .batch [] => some { s with worker := .head }
  | .batch (task :: rest) =>
    some { s with worker := .running task rest, begun := s.begun ++ [task] }
  | .finished _ rest threw =>
    some { s with
      worker := .batch rest
      queueTaskNum := if threw then s.queueTaskNum else s.decremented }
  | .drain =>
    match s.queue with
    | [] => some { s with worker := .exited }
    | task :: _ => some { s with worker := .draining task, begun := s.begun ++ [task] }
  | .drained _ threw =>
    some { s with
      worker := .drain
      queue := s.queue.tail
      queueTaskNum := if threw then s.queueTaskNum else s.decremented }
  | _ => none

/-- The end of the body of the task that the worker runs. -/
def taskEnds (s : GuardThreadExecutor) (threw : Bool) : Option GuardThreadExecutor :=
  match s.worker with
  | .running task rest =>
    some { s with worker := .finished task rest threw, ended := s.ended ++ [(task, threw)] }
  | .draining task =>
    some { s with worker := .drained task threw, ended := s.ended ++ [(task, threw)] }
  | _ => none

/-- One step of a lifecycle call, an `Execute` call, the worker or the task it runs. -/
def step (s : GuardThreadExecutor) : Act → Option GuardThreadExecutor
  | .initializeWith options => some (s.initializeWith options).1
  | .start => some s.start.1
  | .shutdown =>
    if s.state = .shutdown then some s
    else some { s with state := .shutdown, shutdowns := s.shutdowns ++ [.notify] }
  | .shutdownNotify i =>
    if s.shutdowns[i]? = some .notify then
      some { s with shutdowns := s.shutdowns.set i .join, worker := notified s.worker }
    else none
  | .shutdownJoin i =>
    if s.shutdowns[i]? = some .join ∧ (s.worker = .notCreated ∨ s.worker = .exited) then
      some { s with shutdowns := s.shutdowns.set i .returned }
    else none
  | .call => some { s with calls := s.calls ++ [⟨s.calls.length, .load⟩] }
  | .execute i => s.executeStep i
  | .worker => s.workerStep
  | .taskEnds threw => s.taskEnds threw
  | .wakeUp => if s.worker = .asleep then some { s with worker := .wait } else none

/-- The call `i` at another point. -/
def move (s : GuardThreadExecutor) (i : ℕ) (c : ExecuteCall) (pc : ExecutePc) :
    List ExecuteCall :=
  s.calls.set i { c with pc := pc }

/-- What one step can do. -/
inductive Step (s : GuardThreadExecutor) : Act → GuardThreadExecutor → Prop
  | initializes {options} : s.state = .preInit →
      Step s (.initializeWith options) { s with
        state := .init
        options := options
        queueWarnThreshold := options.queueThreshold * 95 / 100
        worker := .head }
  | initializeRejected {options} : s.state ≠ .preInit →
      Step s (.initializeWith options) { s with state := .init }
  | start : Step s .start { s with state := .start }
  | shutdownAgain : s.state = .shutdown → Step s .shutdown s
  | shutdown : s.state ≠ .shutdown →
      Step s .shutdown { s with state := .shutdown, shutdowns := s.shutdowns ++ [.notify] }
  | shutdownNotify {i} : s.shutdowns[i]? = some .notify →
      Step s (.shutdownNotify i) { s with
        shutdowns := s.shutdowns.set i .join, worker := notified s.worker }
  | shutdownJoin {i} : s.shutdowns[i]? = some .join → s.worker = .notCreated ∨ s.worker = .exited →
      Step s (.shutdownJoin i) { s with shutdowns := s.shutdowns.set i .returned }
  | call : Step s .call { s with calls := s.calls ++ [⟨s.calls.length, .load⟩] }
  | load {i c} : s.calls[i]? = some c → c.pc = .load →
      Step s (.execute i) { s with calls := s.move i c .increment }
  | increment {i c} : s.calls[i]? = some c → c.pc = .increment →
      Step s (.execute i) { s with
        calls := s.move i c (.compare s.incremented), queueTaskNum := s.incremented }
  | refuse {i c cur} : s.calls[i]? = some c → c.pc = .compare cur →
      s.options.queueThreshold < cur →
      Step s (.execute i) { s with calls := s.move i c (.reject cur) }
  | accept {i c cur} : s.calls[i]? = some c → c.pc = .compare cur →
      cur ≤ s.options.queueThreshold →
      Step s (.execute i) { s with calls := s.move i c (.push cur) }
  | reject {i c cur} : s.calls[i]? = some c → c.pc = .reject cur →
      Step s (.execute i) { s with
        calls := s.move i c (.rejected cur), queueTaskNum := s.decremented }
  | push {i c cur} : s.calls[i]? = some c → c.pc = .push cur →
      Step s (.execute i) { s with
        calls := s.move i c (.pushed cur)
        queue := s.queue ++ [c.task]
        worker := notified s.worker
        pushed := s.pushed ++ [c.task] }
  | leaves : s.worker = .head → s.state = .shutdown → Step s .worker { s with worker := .drain }
  | waits : s.worker = .head → s.state ≠ .shutdown → Step s .worker { s with worker := .wait }
  | takes : s.worker = .wait → s.queue ≠ [] ∨ s.state = .shutdown →
      Step s .worker { s with worker := .batch s.queue, queue := [] }
  | sleeps : s.worker = .wait → s.queue = [] → s.state ≠ .shutdown →
      Step s .worker { s with worker := .asleep }
  | batchEnds : s.worker = .batch [] → Step s .worker { s with worker := .head }
  | begins {task rest} : s.worker = .batch (task :: rest) →
      Step s .worker { s with worker := .running task rest, begun := s.begun ++ [task] }
  | finishes {task rest threw} : s.worker = .finished task rest threw →
      Step s .worker { s with
        worker := .batch rest
        queueTaskNum := if threw then s.queueTaskNum else s.decremented }
  | exits : s.worker = .drain → s.queue = [] → Step s .worker { s with worker := .exited }
  | drains {task rest} : s.worker = .drain → s.queue = task :: rest →
      Step s .worker { s with worker := .draining task, begun := s.begun ++ [task] }
  | pops {task threw} : s.worker = .drained task threw →
      Step s .worker { s with
        worker := .drain
        queue := s.queue.tail
        queueTaskNum := if threw then s.queueTaskNum else s.decremented }
  | ends {task rest threw} : s.worker = .running task rest →
      Step s (.taskEnds threw) { s with
        worker := .finished task rest threw, ended := s.ended ++ [(task, threw)] }
  | drainEnds {task threw} : s.worker = .draining task →
      Step s (.taskEnds threw) { s with
        worker := .drained task threw, ended := s.ended ++ [(task, threw)] }
  | wakeUp : s.worker = .asleep → Step s .wakeUp { s with worker := .wait }

theorem executeStep_cases {s s' : GuardThreadExecutor} {i : ℕ} (h : s.executeStep i = some s') :
    Step s (.execute i) s' := by
  unfold executeStep at h
  split at h
  · exact absurd h (by simp)
  · next c hc =>
    dsimp only at h
    split at h
    · next hpc =>
      cases h
      exact .load hc hpc
    · next hpc =>
      cases h
      exact .increment hc hpc
    · next cur hpc =>
      unfold verdict at h
      by_cases hcur : s.options.queueThreshold < cur
      · rw [if_pos hcur] at h
        cases h
        exact .refuse hc hpc hcur
      · rw [if_neg hcur] at h
        have hmove : some { s with calls := s.move i c (.push cur) } = some s' := by
          split at h
          · next hwarn => split at hwarn <;> exact absurd hwarn (by simp)
          · exact h
        cases hmove
        exact .accept hc hpc (Nat.le_of_not_lt hcur)
    · next cur hpc =>
      cases h
      exact .reject hc hpc
    · next cur hpc =>
      cases h
      exact .push hc hpc
    · exact absurd h (by simp)

theorem workerStep_cases {s s' : GuardThreadExecutor} (h : s.workerStep = some s') :
    Step s .worker s' := by
  unfold workerStep at h
  split at h
  · next hw =>
    split at h <;> cases h
    · exact .leaves hw ‹_›
    · exact .waits hw ‹_›
  · next hw =>
    split at h
    · next hgo =>
      cases h
      exact .takes hw hgo
    · next hgo =>
      cases h
      simp only [not_or, not_not] at hgo
      exact .sleeps hw hgo.1 hgo.2
  · next hw =>
    cases h
    exact .batchEnds hw
  · next hw =>
    cases h
    exact .begins hw
  · next hw =>
    cases h
    exact .finishes hw
  · next hw =>
    split at h
    · next hq =>
      cases h
      exact .exits hw hq
    · next hq =>
      cases h
      exact .drains hw hq
  · next hw =>
    cases h
    exact .pops hw
  · exact absurd h (by simp)

theorem taskEnds_cases {s s' : GuardThreadExecutor} {threw : Bool}
    (h : s.taskEnds threw = some s') : Step s (.taskEnds threw) s' := by
  unfold taskEnds at h
  split at h
  · next hw =>
    cases h
    exact .ends hw
  · next hw =>
    cases h
    exact .drainEnds hw
  · exact absurd h (by simp)

theorem step_cases {s s' : GuardThreadExecutor} {a : Act} (h : step s a = some s') :
    Step s a s' := by
  cases a with
  | initializeWith options =>
    cases h
    unfold initializeWith
    split
    · exact .initializes ‹_›
    · exact .initializeRejected ‹_›
  | start =>
    cases h
    exact .start
  | shutdown =>
    simp only [step] at h
    split at h <;> cases h
    · exact .shutdownAgain ‹_›
    · exact .shutdown ‹_›
  | shutdownNotify i =>
    simp only [step] at h
    split at h
    · next hi =>
      cases h
      exact .shutdownNotify hi
    · exact absurd h (by simp)
  | shutdownJoin i =>
    simp only [step] at h
    split at h
    · next hi =>
      cases h
      exact .shutdownJoin hi.1 hi.2
    · exact absurd h (by simp)
  | call =>
    cases h
    exact .call
  | execute i => exact executeStep_cases h
  | worker => exact workerStep_cases h
  | taskEnds threw => exact taskEnds_cases h
  | wakeUp =>
    simp only [step] at h
    split at h
    · next hw =>
      cases h
      exact .wakeUp hw
    · exact absurd h (by simp)

/-- No step undoes the first `Initialize`, and a later one changes no option. -/
theorem Step.options_eq {s s' : GuardThreadExecutor} {a : Act} {options : Options}
    (hs : Step s a s') (h : s.state ≠ .preInit ∧ s.options = options) :
    s'.state ≠ .preInit ∧ s'.options = options := by
  cases hs with
  | initializes hpre => exact absurd hpre h.1
  | initializeRejected _ | start | shutdown _ => exact ⟨by simp, h.2⟩
  | _ => exact h

end GuardThreadExecutor

end Ados.GuardThread
