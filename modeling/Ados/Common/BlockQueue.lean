import Ados.Lib.Fifo

/-!
# The blocking queue

A `BlockQueue` and the threads that use it, any number of them, interleaved at the critical sections
of `mutex_`. `Enqueue`, `TryDequeue` and `Stop` are one critical section each. A `Dequeue` call is
one pass or more: it goes to sleep if it finds nothing while the queue runs, and passes again when
it has been notified, or woken up for no reason.

## Main definitions

* `BlockQueue`, `enqueue`, `dequeue`, `tryDequeue`, `stop`: the members, and the critical sections
* `BlockQueueThreads`, `Act`, `step`: the queue with its `Dequeue` calls and its history
* `BlockQueueThreads.fifo`: the queue as a FIFO that can be closed

## Main results

* `BlockQueueThreads.run_fifo`: every run is a run of a FIFO that can be closed
* `BlockQueueThreads.dequeued_append_queue`: nothing is lost, repeated or returned out of order, and
  nothing happens after `Stop`
-/

namespace Ados

open Transition

/-- What `BlockQueueStoppedException` says. -/
def blockQueueStopped : String := "BlockQueue is stopped"

/-- `queue_` and `running_flag_`. -/
structure BlockQueue (T : Type) where
  queue : List T := []
  runningFlag : Bool := true
  deriving DecidableEq, Repr

variable {T : Type}

/-- How a pass of `Dequeue` through its critical section ends. -/
inductive Pass (T : Type) where
  | waits
  | returns (item : T)
  | throws (what : String)
  deriving DecidableEq, Repr

namespace BlockQueue

/-- `Enqueue`, without its notification. -/
def enqueue (q : BlockQueue T) (item : T) : BlockQueue T × Except String Unit :=
  if q.runningFlag then ({ q with queue := q.queue ++ [item] }, .ok ())
  else (q, .error blockQueueStopped)

/-- `Dequeue` from the lock, or from the end of a wait, to the next wait or its end. -/
def dequeue (q : BlockQueue T) : BlockQueue T × Pass T :=
  match q.runningFlag, q.queue with
  | true, [] => (q, .waits)
  | false, _ => (q, .throws blockQueueStopped)
  | true, item :: queue => ({ q with queue := queue }, .returns item)

def tryDequeue (q : BlockQueue T) : BlockQueue T × Option T :=
  match q.queue, q.runningFlag with
  | item :: queue, true => ({ q with queue := queue }, some item)
  | _, _ => (q, none)

/-- `Stop`, without its notification. -/
def stop (q : BlockQueue T) : BlockQueue T := { q with runningFlag := false }

def size (q : BlockQueue T) : ℕ := q.queue.length

def isRunning (q : BlockQueue T) : Bool := q.runningFlag

end BlockQueue

/-- Where a call of `Dequeue` is. -/
inductive DequeueCall (T : Type) where
  /-- before the critical section, at its first pass or after a wake-up for no reason -/
  | entering
  /-- waiting, and not notified -/
  | asleep
  /-- notified, and not yet in the critical section -/
  | notified
  | returned (item : T)
  | threw (what : String)
  deriving DecidableEq, Repr

def DequeueCall.isAsleep : DequeueCall T → Bool
  | .asleep => true
  | _ => false

/-- `cond_.notify_all()`, as one call sees it. -/
def DequeueCall.wake : DequeueCall T → DequeueCall T
  | .asleep => .notified
  | call => call

/-- A queue with its `Dequeue` calls, and the history: the items of the `Enqueue` calls that did not
throw, and the items that `Dequeue` and `TryDequeue` returned. -/
structure BlockQueueThreads (T : Type) where
  q : BlockQueue T := {}
  calls : List (DequeueCall T) := []
  enqueued : List T := []
  dequeued : List T := []

namespace BlockQueueThreads

inductive Act (T : Type) where
  /-- `Enqueue`, which notifies the call `woken`, if any -/
  | enqueue (item : T) (woken : Option ℕ)
  /-- a new call of `Dequeue` -/
  | call
  /-- the next pass of the call `i` -/
  | dequeue (i : ℕ)
  /-- the call `i` wakes up for no reason -/
  | wakeUp (i : ℕ)
  | tryDequeue
  | stop

/-- `cond_.notify_one()` wakes a call that waits, if there is one. -/
def notifyOne (calls : List (DequeueCall T)) : Option ℕ → Option (List (DequeueCall T))
  | some i => if calls[i]?.any DequeueCall.isAsleep then some (calls.set i .notified) else none
  | none => if calls.any DequeueCall.isAsleep then none else some calls

/-- A pass of the call `i` through its critical section. -/
def pass (s : BlockQueueThreads T) (i : ℕ) : BlockQueueThreads T :=
  match s.q.dequeue with
  | (q, .waits) => { s with q := q, calls := s.calls.set i .asleep }
  | (q, .returns item) =>
    { s with q := q, calls := s.calls.set i (.returned item), dequeued := s.dequeued ++ [item] }
  | (q, .throws what) => { s with q := q, calls := s.calls.set i (.threw what) }

/-- One critical section, a new call of `Dequeue`, or a wake-up. -/
def step (s : BlockQueueThreads T) : Act T → Option (BlockQueueThreads T)
  | .enqueue item woken =>
    match s.q.enqueue item with
    | (q, .ok ()) =>
      (notifyOne s.calls woken).map fun calls =>
        { s with q := q, calls := calls, enqueued := s.enqueued ++ [item] }
    | (q, .error _) => if woken = none then some { s with q := q } else none
  | .call => some { s with calls := s.calls ++ [.entering] }
  | .dequeue i =>
    match s.calls[i]? with
    | some .entering | some .notified => some (s.pass i)
    | _ => none
  | .wakeUp i =>
    match s.calls[i]? with
    | some .asleep => some { s with calls := s.calls.set i .entering }
    | _ => none
  | .tryDequeue =>
    some { s with q := s.q.tryDequeue.1, dequeued := s.dequeued ++ s.q.tryDequeue.2.toList }
  | .stop => some { s with q := s.q.stop, calls := s.calls.map DequeueCall.wake }

/-- What one step can do. -/
inductive Step (s : BlockQueueThreads T) : Act T → BlockQueueThreads T → Prop
  | enqueue {item woken calls} : s.q.runningFlag = true → notifyOne s.calls woken = some calls →
      Step s (.enqueue item woken) { s with
        q := { s.q with queue := s.q.queue ++ [item] }
        calls := calls
        enqueued := s.enqueued ++ [item] }
  | enqueueThrows {item} : s.q.runningFlag = false → Step s (.enqueue item none) s
  | call : Step s .call { s with calls := s.calls ++ [.entering] }
  | waits {i} : s.calls[i]? = some .entering ∨ s.calls[i]? = some .notified →
      s.q.runningFlag = true → s.q.queue = [] →
      Step s (.dequeue i) { s with calls := s.calls.set i .asleep }
  | returns {i item queue} : s.calls[i]? = some .entering ∨ s.calls[i]? = some .notified →
      s.q.runningFlag = true → s.q.queue = item :: queue →
      Step s (.dequeue i) { s with
        q := { s.q with queue := queue }
        calls := s.calls.set i (.returned item)
        dequeued := s.dequeued ++ [item] }
  | throws {i} : s.calls[i]? = some .entering ∨ s.calls[i]? = some .notified →
      s.q.runningFlag = false →
      Step s (.dequeue i) { s with calls := s.calls.set i (.threw blockQueueStopped) }
  | wakeUp {i} : s.calls[i]? = some .asleep →
      Step s (.wakeUp i) { s with calls := s.calls.set i .entering }
  | tryReturns {item queue} : s.q.runningFlag = true → s.q.queue = item :: queue →
      Step s .tryDequeue { s with
        q := { s.q with queue := queue }, dequeued := s.dequeued ++ [item] }
  | tryFails : s.q.runningFlag = false ∨ s.q.queue = [] → Step s .tryDequeue s
  | stop : Step s .stop { s with
      q := { s.q with runningFlag := false }, calls := s.calls.map DequeueCall.wake }

variable {s s' t u : BlockQueueThreads T} {a : Act T} {es fs : List (Act T)}

theorem pass_cases {i : ℕ}
    (hi : s.calls[i]? = some .entering ∨ s.calls[i]? = some .notified) :
    Step s (.dequeue i) (s.pass i) := by
  obtain ⟨⟨queue, running⟩, calls, enqueued, dequeued⟩ := s
  cases running with
  | false => exact .throws hi rfl
  | true =>
    cases queue with
    | nil => exact .waits hi rfl rfl
    | cons item queue => exact .returns hi rfl rfl

theorem tryDequeue_cases : Step s .tryDequeue
    { s with q := s.q.tryDequeue.1, dequeued := s.dequeued ++ s.q.tryDequeue.2.toList } := by
  have hfails : s.q.tryDequeue = (s.q, none) → s.q.runningFlag = false ∨ s.q.queue = [] →
      Step s .tryDequeue
        { s with q := s.q.tryDequeue.1, dequeued := s.dequeued ++ s.q.tryDequeue.2.toList } := by
    intro hnone h
    rw [hnone, Option.toList_none, List.append_nil]
    exact .tryFails h
  obtain ⟨⟨queue, running⟩, calls, enqueued, dequeued⟩ := s
  cases queue with
  | nil => exact hfails rfl (Or.inr rfl)
  | cons item queue =>
    cases running with
    | false => exact hfails rfl (Or.inl rfl)
    | true => exact .tryReturns rfl rfl

theorem step_cases (h : step s a = some s') : Step s a s' := by
  cases a with
  | enqueue item woken =>
    obtain ⟨⟨queue, running⟩, calls, enqueued, dequeued⟩ := s
    cases running with
    | false =>
      simp only [step, BlockQueue.enqueue, Bool.false_eq_true, if_false] at h
      split at h
      · next hwoken =>
        cases h
        cases hwoken
        exact .enqueueThrows rfl
      · exact absurd h (by simp)
    | true =>
      obtain ⟨calls', hcalls, rfl⟩ := Option.map_eq_some_iff.mp h
      exact .enqueue rfl hcalls
  | call =>
    cases h
    exact .call
  | dequeue i =>
    simp only [step] at h
    split at h
    · next hi =>
      cases h
      exact pass_cases (Or.inl hi)
    · next hi =>
      cases h
      exact pass_cases (Or.inr hi)
    · exact absurd h (by simp)
  | wakeUp i =>
    simp only [step] at h
    split at h
    · next hi =>
      cases h
      exact .wakeUp hi
    · exact absurd h (by simp)
  | tryDequeue =>
    cases h
    exact tryDequeue_cases
  | stop =>
    cases h
    exact .stop

/-! ## A queue that can be closed -/

/-- The queue without its threads. -/
def fifo (s : BlockQueueThreads T) : Fifo T where
  waiting := s.q.queue
  offered := s.enqueued
  served := s.dequeued
  closed := !s.q.runningFlag

/-- A step is one event of the FIFO, or none. -/
theorem Step.fifo (hs : Step s a s') :
    ∃ gs, run Fifo.step s.fifo gs = some s'.fifo := by
  cases hs with
  | @enqueue item woken calls hrun hcalls =>
    refine ⟨[.offer item], ?_⟩
    simp [run_singleton, Fifo.step, BlockQueueThreads.fifo, hrun]
  | @returns i item queue _ hrun hqueue | @tryReturns item queue hrun hqueue =>
    refine ⟨[.serve], ?_⟩
    simp [run_singleton, Fifo.step, BlockQueueThreads.fifo, hrun, hqueue]
  | stop =>
    refine ⟨[.close], ?_⟩
    simp [run_singleton, Fifo.step, BlockQueueThreads.fifo]
  | enqueueThrows _ | call | waits _ _ _ | throws _ _ | wakeUp _ | tryFails _ => exact ⟨[], rfl⟩

/-- **The blocking queue is a FIFO that can be closed.** -/
theorem run_fifo (hr : run step s es = some t) : ∃ gs, run Fifo.step s.fifo gs = some t.fifo := by
  refine run_abstraction (I := fun _ => True) (fun _ _ _ _ _ => trivial) ?_ trivial hr
  exact fun s a t _ hs => (step_cases hs).fifo

/-- The critical section throws, or returns no item. -/
def EmptyHanded (s : BlockQueueThreads T) : Act T → Prop
  | .enqueue item _ => ∃ what, (s.q.enqueue item).2 = .error what
  | .dequeue _ => ∀ item, s.q.dequeue.2 ≠ .returns item
  | .tryDequeue => s.q.tryDequeue.2 = none
  | _ => False

theorem Step.of_emptyHanded (hs : Step s a s') (he : s.EmptyHanded a) : s'.fifo = s.fifo := by
  cases hs with
  | enqueue hrun _ => simp [EmptyHanded, BlockQueue.enqueue, hrun] at he
  | returns _ hrun hqueue => simp [EmptyHanded, BlockQueue.dequeue, hrun, hqueue] at he
  | tryReturns hrun hqueue => simp [EmptyHanded, BlockQueue.tryDequeue, hrun, hqueue] at he
  | stop => exact he.elim
  | enqueueThrows _ | call | waits _ _ _ | throws _ _ | wakeUp _ | tryFails _ => rfl

/-- `Stop` closes the queue for good. -/
theorem closed_of_stop (hr : run step s es = some t) (hstop : .stop ∈ es) :
    t.fifo.closed = true := by
  obtain ⟨es₁, es₂, rfl⟩ := List.append_of_mem hstop
  obtain ⟨v, -, hr⟩ := run_append_eq_some.mp hr
  obtain ⟨w, hw, hr⟩ := run_cons_eq_some.mp hr
  have hclosed : w.fifo.closed = true := by
    cases step_cases hw with
    | stop => rfl
  obtain ⟨gs, hgs⟩ := run_fifo hr
  rw [Fifo.run_of_closed hclosed hgs]
  exact hclosed

/-- **Nothing is lost, repeated or returned out of order.** In every state that is reached the items
returned and the items of `queue_` are the items enqueued, and `Size` is the difference of their
numbers; after `Stop` nothing is enqueued or returned any more; and a call that throws or returns no
item leaves the queue and the history as they are. -/
theorem dequeued_append_queue (hr : run step ({} : BlockQueueThreads T) es = some s) :
    s.dequeued ++ s.q.queue = s.enqueued ∧
      s.q.size + s.dequeued.length = s.enqueued.length ∧
      (.stop ∈ es → ∀ fs t, run step s fs = some t →
        t.enqueued = s.enqueued ∧ t.dequeued = s.dequeued) ∧
      ∀ a t, s.EmptyHanded a → step s a = some t →
        t.q = s.q ∧ t.enqueued = s.enqueued ∧ t.dequeued = s.dequeued := by
  obtain ⟨gs, hgs⟩ := run_fifo hr
  have hfifo : s.fifo.InOrder := Fifo.run_inOrder hgs
  refine ⟨hfifo, hfifo.length_waiting, fun hstop fs t ht => ?_, fun a t he ht => ?_⟩
  · obtain ⟨gs, hgs⟩ := run_fifo ht
    have heq := Fifo.run_of_closed (closed_of_stop hr hstop) hgs
    exact ⟨congrArg Fifo.offered heq, congrArg Fifo.served heq⟩
  · have heq := (step_cases ht).of_emptyHanded he
    refine ⟨?_, congrArg Fifo.offered heq, congrArg Fifo.served heq⟩
    have hqueue : t.q.queue = s.q.queue := congrArg Fifo.waiting heq
    have hrunning : t.q.runningFlag = s.q.runningFlag :=
      Bool.not_inj (congrArg Fifo.closed heq)
    obtain ⟨⟨queue, running⟩, calls, enqueued, dequeued⟩ := t
    simp only at hqueue hrunning
    rw [hqueue, hrunning]

/-- Two consumers, one of which sleeps and finds the item of its notification gone. -/
theorem dequeued_append_queue_stolen :
    ∃ s, run step ({} : BlockQueueThreads ℕ) [.call, .dequeue 0, .enqueue 1 (some 0), .tryDequeue,
        .dequeue 0, .enqueue 2 (some 0), .enqueue 3 none, .dequeue 0, .stop] = some s ∧
      s.dequeued = [1, 2] ∧ s.dequeued ++ s.q.queue = s.enqueued := by
  have h : ((run step ({} : BlockQueueThreads ℕ) [.call, .dequeue 0, .enqueue 1 (some 0),
      .tryDequeue, .dequeue 0, .enqueue 2 (some 0), .enqueue 3 none, .dequeue 0, .stop]).map
        (·.dequeued)) = some [1, 2] := by
    decide +kernel
  obtain ⟨s, hs, hval⟩ := Option.map_eq_some_iff.mp h
  exact ⟨s, hs, hval, (dequeued_append_queue hs).1⟩

end BlockQueueThreads

end Ados
