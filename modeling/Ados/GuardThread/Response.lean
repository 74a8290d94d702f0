import Ados.GuardThread.Admission
import Ados.GuardThread.Lifecycle
import Ados.GuardThread.WakeUps

/-!
# An accepted task does not wait for later ones

A pushed task waits for the tasks before it, each of which takes the worker three steps, and for the
worker to come from one batch to the next. Later `Execute` calls, however many, do not put it off:
`queue_` is taken as a whole, and run from its front. The tasks before it are fewer than the
threshold.

## Main definitions

* `Act.ofWorker`: the steps of the worker, the end of a task included
* `GuardThreadExecutor.delay`: the steps of the worker before it begins a task

## Main results

* `GuardThreadExecutor.Step.delay_le`: every step of the worker lowers the delay, no other raises it
* `GuardThreadExecutor.exists_ofWorker`: the worker can go on as long as a task has not begun
* `GuardThreadExecutor.begins_within`: a task begins within as many steps of the worker
-/

namespace Ados.GuardThread

open Transition

/-- A step of the worker, in the body of a task or outside. -/
def Act.ofWorker : Act → Bool
  | .worker | .taskEnds _ => true
  | _ => false

namespace Worker

/-- The worker is in the body of a task. -/
def inTask : Worker → Bool
  | .running _ _ | .draining _ => true
  | _ => false

/-- The steps before the worker is at the condition of a loop over tasks. -/
def delay : Worker → ℕ
  | .running _ _ | .draining _ | .head => 2
  | .finished _ _ _ | .drained _ _ | .wait => 1
  | _ => 0

/-- The steps from the batch of the worker to the next one, for a task behind `n` others that is not
in the batch. -/
def nextBatch (n : ℕ) : Worker → ℕ
  | .batch tmpQueue => if tmpQueue.length ≤ n then 3 else 0
  | .running _ rest | .finished _ rest _ => if rest.length ≤ n then 3 else 0
  | _ => 0

end Worker

namespace GuardThreadExecutor

variable {s s' u : GuardThreadExecutor} {a : Act} {es fs : List Act} {options : Options} {p : ℕ}

/-- The steps of the worker before it begins the task that was pushed behind `p` others. -/
def delay (s : GuardThreadExecutor) (p : ℕ) : ℕ :=
  3 * (p - s.begun.length) + s.worker.delay + s.worker.nextBatch (p - s.begun.length)

theorem delay_le (s : GuardThreadExecutor) (p : ℕ) : s.delay p ≤ 3 * (p - s.begun.length) + 5 := by
  have hworker : s.worker.delay ≤ 2 := by cases s.worker <;> simp [Worker.delay]
  have hnext : s.worker.nextBatch (p - s.begun.length) ≤ 3 := by
    cases s.worker <;> simp only [Worker.nextBatch] <;> first | split <;> omega | omega
  unfold delay
  omega

/-- The task has been pushed behind `p` others and has not begun, in a state that is reached. -/
structure Awaits (p : ℕ) (s : GuardThreadExecutor) : Prop where
  init : s.state ≠ .preInit
  order : InOrder s
  sleeps : SleepsSoundly s
  pushed : p < s.pushed.length
  begun : s.begun.length ≤ p

/-- It is in the batch or in `queue_`. -/
theorem Awaits.lt (h : Awaits p s) :
    p - s.begun.length < s.worker.unbegun.length + s.waiting.length := by
  have hlen := congrArg List.length h.order.order
  simp only [List.length_append] at hlen
  have hpushed := h.pushed
  have hbegun := h.begun
  omega

/-- The worker does not sleep. -/
theorem Awaits.ne_asleep (h : Awaits p s) : s.worker ≠ .asleep := by
  intro hw
  have hlt := h.lt
  simp [waiting, hw, Worker.unbegun, Worker.drainFront, h.sleeps.queue_eq_nil hw] at hlt

theorem notified_eq {w : Worker} (h : w ≠ .asleep) : notified w = w := by
  cases w <;> simp_all [notified]

theorem Step.length_begun_le (hs : Step s a s') : s.begun.length ≤ s'.begun.length := by
  cases hs <;> simp

theorem Step.length_pushed_le (hs : Step s a s') : s.pushed.length ≤ s'.pushed.length := by
  cases hs <;> simp

theorem Awaits.step (h : Awaits p s) (hs : Step s a s') (hbegun : s'.begun.length ≤ p) :
    Awaits p s' :=
  ⟨(hs.options_eq ⟨h.init, rfl⟩).1, h.order.step h.init hs, hs.sleepsSoundly h.sleeps,
    h.pushed.trans_le hs.length_pushed_le, hbegun⟩

/-- **A step of the worker brings the task nearer**, and no other step puts it off. -/
theorem Step.delay_le (hs : Step s a s') (h : Awaits p s) (hbegun : s'.begun.length ≤ p) :
    s'.delay p + (if a.ofWorker then 1 else 0) ≤ s.delay p := by
  have hlt := h.lt
  have hwake := h.ne_asleep
  unfold waiting at hlt
  cases hs with
  | initializes hpre => exact absurd hpre h.init
  | wakeUp hw => exact absurd hw hwake
  | initializeRejected _ | start | shutdownAgain _ | shutdown _ | shutdownJoin _ _ | call
  | load _ _ | increment _ _ | refuse _ _ _ | accept _ _ _ | reject _ _ =>
    exact Nat.le_refl _
  | shutdownNotify _ | push _ _ =>
    simp only [delay, notified_eq hwake, Act.ofWorker]
    exact Nat.le_refl _
  | sleeps hw hqueue _ => simp [hw, hqueue, Worker.unbegun, Worker.drainFront] at hlt
  | exits hw hqueue => simp [hw, hqueue, Worker.unbegun, Worker.drainFront] at hlt
  | leaves hw _ | waits hw _ | pops hw | drainEnds hw | batchEnds hw =>
    simp [delay, hw, Worker.delay, Worker.nextBatch, Act.ofWorker]
  | finishes hw | ends hw =>
    simp only [delay, hw, Worker.delay, Worker.nextBatch, Act.ofWorker, if_true]
    omega
  | takes hw _ =>
    have hin : ¬ s.queue.length ≤ p - s.begun.length := by
      simpa [hw, Worker.unbegun, Worker.drainFront] using hlt
    simp [delay, hw, Worker.delay, Worker.nextBatch, Act.ofWorker, hin]
  | @begins task rest hw =>
    simp only [List.length_append, List.length_singleton] at hbegun
    have hahead : p - (s.begun.length + 1) = p - s.begun.length - 1 := by omega
    have hiff : rest.length ≤ p - s.begun.length - 1 ↔ rest.length + 1 ≤ p - s.begun.length := by
      omega
    simp only [delay, hw, Worker.delay, Worker.nextBatch, Act.ofWorker, if_true,
      List.length_append, List.length_cons, List.length_nil, Nat.zero_add, hahead, hiff]
    omega
  | drains hw _ =>
    simp only [List.length_append, List.length_singleton] at hbegun
    simp only [delay, hw, Worker.delay, Worker.nextBatch, Act.ofWorker, if_true,
      List.length_append, List.length_singleton]
    omega

/-! ## Runs -/

theorem run_length_begun_le (hr : run GuardThreadExecutor.step s fs = some u) :
    s.begun.length ≤ u.begun.length :=
  run_invariant (P := fun t => s.begun.length ≤ t.begun.length)
    (fun _ _ _ hle hs => hle.trans (step_cases hs).length_begun_le) (Nat.le_refl _) hr

/-- As long as the task has not begun, the worker takes no more steps than its delay. -/
theorem Awaits.run (h : Awaits p s) (hr : run GuardThreadExecutor.step s fs = some u)
    (hbegun : u.begun.length ≤ p) :
    Awaits p u ∧ u.delay p + fs.countP Act.ofWorker ≤ s.delay p := by
  induction fs generalizing s with
  | nil =>
    cases hr
    exact ⟨h, Nat.le_refl _⟩
  | cons a fs ih =>
    obtain ⟨t, hs, hr⟩ := run_cons_eq_some.mp hr
    have hs := step_cases hs
    have ht := (run_length_begun_le hr).trans hbegun
    obtain ⟨hu, hrest⟩ := ih (h.step hs ht) hr
    have hfirst := hs.delay_le h ht
    rw [List.countP_cons]
    exact ⟨hu, by omega⟩

/-- Outside the bodies of tasks a worker that is awake can go on. -/
theorem isSome_worker (htask : s.worker.inTask = false)
    (hw : s.worker ≠ .notCreated ∧ s.worker ≠ .exited ∧ s.worker ≠ .asleep) :
    (s.step .worker).isSome = true := by
  simp only [GuardThreadExecutor.step, workerStep]
  cases hworker : s.worker with
  | notCreated | exited | asleep => simp [hworker] at hw
  | running _ _ | draining _ => simp [hworker, Worker.inTask] at htask
  | head | wait =>
    dsimp only
    split <;> rfl
  | drain => cases s.queue <;> rfl
  | batch tmpQueue => cases tmpQueue <;> rfl
  | finished _ _ _ | drained _ _ => rfl

theorem isSome_taskEnds (htask : s.worker.inTask = true) :
    (s.step (.taskEnds false)).isSome = true := by
  simp only [GuardThreadExecutor.step, taskEnds]
  cases hworker : s.worker <;> simp [hworker, Worker.inTask] at htask ⊢

/-- The thread is there once the executor has been initialized. -/
theorem worker_ne_notCreated (hr : run GuardThreadExecutor.step (initialized options) es = some s) :
    s.worker ≠ .notCreated :=
  (run_invariant (P := Joined) (fun _ _ _ h hs => h.step (step_cases hs)) joined_initialized
    hr).created

/-- The worker can go on as long as the task has not begun, unless it has exited before. -/
theorem Awaits.exists_ofWorker (h : Awaits p s) (hw : s.worker ≠ .notCreated ∧ s.worker ≠ .exited) :
    ∃ a, a.ofWorker = true ∧ (s.step a).isSome = true := by
  cases htask : s.worker.inTask with
  | true => exact ⟨.taskEnds false, rfl, isSome_taskEnds htask⟩
  | false => exact ⟨.worker, rfl, isSome_worker htask ⟨hw.1, hw.2, h.ne_asleep⟩⟩

/-- **An accepted task begins soon.** However many calls of `Execute` come, a task that has been
pushed and has not begun has fewer than `queue_threshold` tasks before it, the worker begins it
before it has taken three steps for each of them and five more, and it can take one unless it has
exited, in which case the task has been pushed too late. -/
theorem begins_within (hr : run GuardThreadExecutor.step (initialized options) es = some s)
    (hwrap : AllSteps GuardThreadExecutor.step NoWrap (initialized options) es)
    (hpushed : p < s.pushed.length) (hfs : run GuardThreadExecutor.step s fs = some u)
    (hbegun : u.begun.length ≤ p) :
    p - s.begun.length < options.queueThreshold ∧
      fs.countP Act.ofWorker ≤ 3 * (p - s.begun.length) + 5 ∧
      (u.worker = .exited ∨ ∃ a, a.ofWorker = true ∧ (u.step a).isSome = true) := by
  obtain ⟨hregular, hadmission⟩ := run_admission hr hwrap
  have hinit : run GuardThreadExecutor.step {} (.initializeWith options :: es) = some s :=
    run_cons_eq_some.mpr ⟨_, rfl, hr⟩
  have h : Awaits p s := ⟨hregular.init.1, hregular.order, sleepsSoundly_run hinit, hpushed,
    (run_length_begun_le hfs).trans hbegun⟩
  obtain ⟨hu, hcount⟩ := h.run hfs hbegun
  refine ⟨?_, ?_, ?_⟩
  · have hlt := h.lt
    have hpending := h.order.length_pending_le
    have hadmitted := hadmission.admitted_le
    simp only [pending, List.length_append] at hpending
    rw [hregular.init.2] at hadmitted
    omega
  · have hle := s.delay_le p
    omega
  · by_cases hexited : u.worker = .exited
    · exact Or.inl hexited
    · refine Or.inr (hu.exists_ofWorker ⟨?_, hexited⟩)
      exact worker_ne_notCreated (run_append_eq_some.mpr ⟨s, hr, hfs⟩)

/-- Two tasks have been pushed, and a third comes while the worker runs the first. -/
theorem begins_within_two : ∃ s u,
    run GuardThreadExecutor.step (initialized {}) [.start, .call, .call, .execute 0, .execute 0,
      .execute 0, .execute 0, .execute 1, .execute 1, .execute 1, .execute 1] = some s ∧
    run GuardThreadExecutor.step s [.worker, .worker, .worker, .call, .execute 2, .execute 2,
      .execute 2, .execute 2, .taskEnds false] = some u ∧
    1 - s.begun.length < 10000 ∧ ∃ a, a.ofWorker = true ∧ (u.step a).isSome = true := by
  have hval : ((run GuardThreadExecutor.step (initialized {}) [.start, .call, .call, .execute 0,
      .execute 0, .execute 0, .execute 0, .execute 1, .execute 1, .execute 1, .execute 1]).bind
      fun s => (run GuardThreadExecutor.step s [.worker, .worker, .worker, .call, .execute 2,
        .execute 2, .execute 2, .execute 2, .taskEnds false]).map
          fun u => (s.pushed.length, u.begun.length, decide (u.worker = .exited))) =
      some (2, 1, false) := by
    decide +kernel
  obtain ⟨s, hs, hval⟩ := Option.bind_eq_some_iff.mp hval
  obtain ⟨u, hu, hval⟩ := Option.map_eq_some_iff.mp hval
  obtain ⟨hpushed, hval⟩ := Prod.mk.inj hval
  obtain ⟨hbegun, hexited⟩ := Prod.mk.inj hval
  obtain ⟨hahead, -, hgo⟩ := begins_within hs (by decide +kernel) (p := 1) (by omega) hu (by omega)
  exact ⟨s, u, hs, hu, hahead, hgo.resolve_left (of_decide_eq_false hexited)⟩

end GuardThreadExecutor

end Ados.GuardThread
