import Ados.GuardThread.Order
import Mathlib.Algebra.Order.BigOperators.Group.List

/-!
# The task counter

`queue_task_num_` stands for the tasks of `queue_` and of the batch and for the calls that have
incremented it and not yet pushed or withdrawn. It counts them as long as every task that is taken
off is taken off the counter, which the handler of a task that throws does not do.

## Main definitions

* `GuardThreadExecutor.hold`: the number of tasks in `queue_` and in the batch
* `GuardThreadExecutor.counted`: what the counter stands for
* `GuardThreadExecutor.LosesCount`, `GuardThreadExecutor.Increments`: a step that ends a task that
  has thrown, and the increment of a call
* `GuardThreadExecutor.Effect`: what a step does to the counter and to what it stands for

## Main results

* `GuardThreadExecutor.counter_truthful_iff`: the counter is right as long as no task has thrown
-/

namespace Ados.GuardThread

open Transition

/-- The number of tasks in the batch, the one that runs included. -/
def Worker.load : Worker → ℕ
  | .batch tmpQueue => tmpQueue.length
  | .running _ rest => rest.length + 1
  | .finished _ rest _ => rest.length + 1
  | _ => 0

/-- The worker is at the end of the iteration of a task that has thrown. -/
def Worker.EndsThrown : Worker → Prop
  | .finished _ _ threw => threw = true
  | .drained _ threw => threw = true
  | _ => False

/-- The call has incremented the counter and has neither pushed nor withdrawn. -/
def ExecuteCall.inFlight (c : ExecuteCall) : ℕ :=
  match c.pc with
  | .compare _ => 1
  | .reject _ => 1
  | .push _ => 1
  | _ => 0

/-- The call has been admitted, or will be, and has not yet pushed. -/
def ExecuteCall.admitted (threshold : ℕ) (c : ExecuteCall) : ℕ :=
  match c.pc with
  | .compare cur => if cur ≤ threshold then 1 else 0
  | .push _ => 1
  | _ => 0

namespace GuardThreadExecutor

@[simp] theorem notified_load (w : Worker) : (notified w).load = w.load := by cases w <;> rfl

/-- The number of tasks in `queue_` and in the batch of the worker. -/
def hold (s : GuardThreadExecutor) : ℕ := s.queue.length + s.worker.load

/-- What the counter stands for. -/
def counted (s : GuardThreadExecutor) : ℕ := s.hold + (s.calls.map ExecuteCall.inFlight).sum

/-- The step ends a task that has thrown. -/
def LosesCount (s : GuardThreadExecutor) : Act → Prop
  | .worker => s.worker.EndsThrown
  | _ => False

/-- The step is the increment of a call. -/
def Increments (s : GuardThreadExecutor) : Act → Prop
  | .execute i => s.calls[i]?.map (·.pc) = some .increment
  | _ => False

instance (s : GuardThreadExecutor) : ∀ a, Decidable (s.Increments a)
  | .execute i => inferInstanceAs (Decidable (s.calls[i]?.map (·.pc) = some .increment))
  | .initializeWith _ | .start | .shutdown | .shutdownNotify _ | .shutdownJoin _ | .call | .worker
  | .taskEnds _ | .wakeUp => isFalse id

variable {s s' u : GuardThreadExecutor} {a : Act} {es : List Act} {options : Options}

/-- What a step does to the counter, to the tasks held and to the calls. -/
inductive Effect (s : GuardThreadExecutor) (a : Act) (s' : GuardThreadExecutor) : Prop
  | quiet (hold : s'.hold = s.hold) (calls : s'.calls = s.calls)
      (num : s'.queueTaskNum = s.queueTaskNum) (keeps : ¬ s.LosesCount a) (adds : ¬ s.Increments a)
  | call (hold : s'.hold = s.hold) (calls : s'.calls = s.calls ++ [⟨s.calls.length, .load⟩])
      (num : s'.queueTaskNum = s.queueTaskNum) (keeps : ¬ s.LosesCount a) (adds : ¬ s.Increments a)
  | increments {i : ℕ} {c : ExecuteCall} (at_ : s.calls[i]? = some c) (pc : c.pc = .increment)
      (hold : s'.hold = s.hold) (calls : s'.calls = s.move i c (.compare s.incremented))
      (num : s'.queueTaskNum = s.incremented) (keeps : ¬ s.LosesCount a) (adds : s.Increments a)
  | sorts {i : ℕ} {c : ExecuteCall} {pc : ExecutePc} (at_ : s.calls[i]? = some c)
      (flight : ExecuteCall.inFlight { c with pc := pc } = c.inFlight)
      (admitted : ExecuteCall.admitted s.options.queueThreshold { c with pc := pc } =
        c.admitted s.options.queueThreshold)
      (hold : s'.hold = s.hold) (calls : s'.calls = s.move i c pc)
      (num : s'.queueTaskNum = s.queueTaskNum) (keeps : ¬ s.LosesCount a) (adds : ¬ s.Increments a)
  | rejects {i : ℕ} {c : ExecuteCall} {cur : ℕ} (at_ : s.calls[i]? = some c)
      (pc : c.pc = .reject cur) (hold : s'.hold = s.hold)
      (calls : s'.calls = s.move i c (.rejected cur))
      (num : s'.queueTaskNum = s.decremented) (keeps : ¬ s.LosesCount a) (adds : ¬ s.Increments a)
  | pushes {i : ℕ} {c : ExecuteCall} {cur : ℕ} (at_ : s.calls[i]? = some c)
      (pc : c.pc = .push cur) (hold : s'.hold = s.hold + 1)
      (calls : s'.calls = s.move i c (.pushed cur)) (num : s'.queueTaskNum = s.queueTaskNum)
      (keeps : ¬ s.LosesCount a) (adds : ¬ s.Increments a)
  | returned (hold : s'.hold + 1 = s.hold) (calls : s'.calls = s.calls)
      (num : s'.queueTaskNum = s.decremented) (keeps : ¬ s.LosesCount a) (adds : ¬ s.Increments a)
  | threw (hold : s'.hold + 1 = s.hold) (calls : s'.calls = s.calls)
      (num : s'.queueTaskNum = s.queueTaskNum) (keeps : s.LosesCount a) (adds : ¬ s.Increments a)

theorem Step.effect (hs : Step s a s') (hinit : s.state ≠ .preInit) (ho : InOrder s) :
    Effect s a s' := by
  have hcall : ∀ {i c pc}, s.calls[i]? = some c → c.pc = pc → pc ≠ .increment →
      ¬ s.Increments (.execute i) := by
    rintro i c pc hc rfl hpc
    simpa [Increments, hc] using hpc
  cases hs with
  | initializes hpre => exact absurd hpre hinit
  | initializeRejected _ | start | shutdownAgain _ | shutdown _ | shutdownJoin _ _ =>
    exact .quiet rfl rfl rfl id id
  | shutdownNotify _ => exact .quiet (by simp [hold]) rfl rfl id id
  | call => exact .call rfl rfl rfl id id
  | load hc hpc =>
    exact .sorts hc (by simp [ExecuteCall.inFlight, hpc]) (by simp [ExecuteCall.admitted, hpc]) rfl
      rfl rfl id (hcall hc hpc (by simp))
  | increment hc hpc =>
    exact .increments hc hpc (by simp only [hold]) rfl rfl id (by simp [Increments, hc, hpc])
  | refuse hc hpc hlt =>
    exact .sorts hc (by simp [ExecuteCall.inFlight, hpc])
      (by simp [ExecuteCall.admitted, hpc, Nat.not_le.mpr hlt]) rfl rfl rfl id
      (hcall hc hpc (by simp))
  | accept hc hpc hle =>
    exact .sorts hc (by simp [ExecuteCall.inFlight, hpc])
      (by simp [ExecuteCall.admitted, hpc, hle]) rfl rfl rfl id (hcall hc hpc (by simp))
  | reject hc hpc =>
    exact .rejects hc hpc (by simp only [hold]) rfl rfl id (hcall hc hpc (by simp))
  | push hc hpc =>
    refine .pushes hc hpc ?_ rfl rfl id (hcall hc hpc (by simp))
    simp [hold]
    omega
  | leaves hw _ | waits hw _ | takes hw _ | sleeps hw _ _ | batchEnds hw | begins hw | exits hw _
  | drains hw _ =>
    exact .quiet (by simp [hold, hw, Worker.load]) rfl rfl
      (by simp [LosesCount, hw, Worker.EndsThrown]) id
  | ends hw | drainEnds hw | wakeUp hw =>
    exact .quiet (by simp [hold, hw, Worker.load]) rfl rfl id id
  | @finishes task rest threw hw =>
    have hload : s.worker.load = rest.length + 1 := by rw [hw]; rfl
    have hhold : s.queue.length + rest.length + 1 = s.hold := by rw [hold, hload, Nat.add_assoc]
    cases threw with
    | false =>
      exact .returned hhold rfl (by simp) (by simp [LosesCount, hw, Worker.EndsThrown]) id
    | true =>
      exact .threw hhold rfl (by simp) (by simp [LosesCount, hw, Worker.EndsThrown]) id
  | @pops task threw hw =>
    -- the drain pops the task that it has begun
    obtain ⟨rest, hrest⟩ :=
      List.head?_eq_some_iff.mp (ho.front task (by simp [hw, Worker.drainFront]))
    have hload : s.worker.load = 0 := by rw [hw]; rfl
    have hhold : s.queue.tail.length + 0 + 1 = s.hold := by rw [hold, hload, hrest]; rfl
    cases threw with
    | false =>
      exact .returned hhold rfl (by simp) (by simp [LosesCount, hw, Worker.EndsThrown]) id
    | true =>
      exact .threw hhold rfl (by simp) (by simp [LosesCount, hw, Worker.EndsThrown]) id

/-! ## The arithmetic of the counter -/

theorem incremented_eq (h : s.queueTaskNum + 1 < 2 ^ 32) : s.incremented = s.queueTaskNum + 1 := by
  unfold incremented
  omega

theorem incremented_lt : s.incremented < 2 ^ 32 := by
  unfold incremented
  omega

theorem decremented_eq (h : s.queueTaskNum < 2 ^ 32) (hpos : 0 < s.queueTaskNum) :
    s.decremented + 1 = s.queueTaskNum := by
  unfold decremented
  omega

theorem decremented_lt : s.decremented < 2 ^ 32 := by
  unfold decremented
  omega

/-- When a call moves on, its old weight is exchanged for the new one. -/
theorem sum_move (f : ExecuteCall → ℕ) {i : ℕ} {c : ExecuteCall} (hc : s.calls[i]? = some c)
    (pc : ExecutePc) :
    ((s.move i c pc).map f).sum + f c = (s.calls.map f).sum + f { c with pc := pc } :=
  Bag.sum_map_set_add f hc _

/-- What a step does to the counter and to what it stands for. -/
inductive Tally (s : GuardThreadExecutor) (a : Act) (s' : GuardThreadExecutor) : Prop
  | same (counted : s'.counted = s.counted) (num : s'.queueTaskNum = s.queueTaskNum)
      (keeps : ¬ s.LosesCount a) (adds : ¬ s.Increments a)
  | up (counted : s'.counted = s.counted + 1) (num : s'.queueTaskNum = s.incremented)
      (keeps : ¬ s.LosesCount a) (adds : s.Increments a)
  | down (counted : s.counted = s'.counted + 1) (num : s'.queueTaskNum = s.decremented)
      (keeps : ¬ s.LosesCount a) (adds : ¬ s.Increments a)
  | lost (counted : s.counted = s'.counted + 1) (num : s'.queueTaskNum = s.queueTaskNum)
      (keeps : s.LosesCount a) (adds : ¬ s.Increments a)

theorem Effect.tally (h : Effect s a s') : Tally s a s' := by
  cases h with
  | quiet hold calls num keeps adds =>
    exact .same (by rw [counted, hold, calls, counted]) num keeps adds
  | call hold calls num keeps adds =>
    refine .same ?_ num keeps adds
    rw [counted, hold, calls, counted]
    simp [ExecuteCall.inFlight]
  | @increments i c at_ pc hold calls num keeps adds =>
    have hsum := sum_move ExecuteCall.inFlight at_ (.compare s.incremented)
    simp only [ExecuteCall.inFlight, pc] at hsum
    refine .up ?_ num keeps adds
    rw [counted, hold, calls, counted]
    omega
  | @sorts i c pc at_ flight _ hold calls num keeps adds =>
    have hsum := sum_move ExecuteCall.inFlight at_ pc
    refine .same ?_ num keeps adds
    rw [counted, hold, calls, counted]
    omega
  | @rejects i c cur at_ pc hold calls num keeps adds =>
    have hsum := sum_move ExecuteCall.inFlight at_ (.rejected cur)
    simp only [ExecuteCall.inFlight, pc] at hsum
    refine .down ?_ num keeps adds
    rw [counted, counted, hold, calls]
    omega
  | @pushes i c cur at_ pc hold calls num keeps adds =>
    have hsum := sum_move ExecuteCall.inFlight at_ (.pushed cur)
    simp only [ExecuteCall.inFlight, pc] at hsum
    refine .same ?_ num keeps adds
    rw [counted, hold, calls, counted]
    omega
  | returned hold calls num keeps adds =>
    refine .down ?_ num keeps adds
    rw [counted, counted, calls]
    omega
  | threw hold calls num keeps adds =>
    refine .lost ?_ num keeps adds
    rw [counted, counted, calls]
    omega

/-- What every run keeps. -/
structure Regular (options : Options) (s : GuardThreadExecutor) : Prop where
  init : s.state ≠ .preInit ∧ s.options = options
  order : InOrder s
  num_lt : s.queueTaskNum < 2 ^ 32

theorem regular_initialized : Regular options (initialized options) :=
  ⟨⟨by simp [initialized, initializeWith], rfl⟩, inOrder_initialized,
    by simp [initialized, initializeWith]⟩

theorem Regular.step (h : Regular options s) (hs : Step s a s') : Regular options s' := by
  refine ⟨hs.options_eq h.init, h.order.step h.init.1 hs, ?_⟩
  cases hs.effect h.init.1 h.order with
  | quiet _ _ num | call _ _ num | sorts _ _ _ _ _ num | pushes _ _ _ _ num | threw _ _ num =>
    rw [num]; exact h.num_lt
  | increments _ _ _ _ num => rw [num]; exact incremented_lt
  | rejects _ _ _ _ num | returned _ _ num => rw [num]; exact decremented_lt

/-! ## When the counter tells the truth -/

/-- The worker holds no task and `queue_` is empty, and no call of `Execute` is in progress. -/
structure Idle (s : GuardThreadExecutor) : Prop where
  worker : s.worker.load = 0
  queue : s.queue = []
  calls : ∀ c ∈ s.calls, ∃ cur, c.pc = .rejected cur ∨ c.pc = .pushed cur

/-- The counter is the number of tasks in `queue_` and in the batch and of calls in flight; so it is
`0` when the executor is idle. -/
def Truthful (s : GuardThreadExecutor) : Prop :=
  s.queueTaskNum = s.counted ∧ (s.Idle → s.queueTaskNum = 0)

/-- The step takes no task off that has thrown, and the increment of a call does not wrap around. -/
def Counts (s : GuardThreadExecutor) (a : Act) : Prop :=
  ¬ s.LosesCount a ∧ (s.Increments a → s.queueTaskNum + 1 < 2 ^ 32)

theorem counted_of_idle (h : s.Idle) : s.counted = 0 := by
  have hcalls : (s.calls.map ExecuteCall.inFlight).sum = 0 := by
    refine List.sum_eq_zero fun n hn => ?_
    obtain ⟨c, hc, rfl⟩ := List.mem_map.mp hn
    obtain ⟨cur, hpc | hpc⟩ := h.calls c hc <;> simp [ExecuteCall.inFlight, hpc]
  rw [counted, hold, h.worker, hcalls, h.queue]
  rfl

theorem truthful_iff : s.Truthful ↔ s.queueTaskNum = s.counted :=
  ⟨fun h => h.1, fun h => ⟨h, fun hidle => h.trans (counted_of_idle hidle)⟩⟩

/-- One step keeps the counter right exactly when it counts. -/
theorem truthful_step (h : Regular options s) (ht : s.Truthful) (hs : Step s a s') :
    s'.Truthful ↔ s.Counts a := by
  rw [truthful_iff] at ht ⊢
  have hlt := h.num_lt
  cases (hs.effect h.init.1 h.order).tally with
  | same counted num keeps adds =>
    exact iff_of_true (by rw [num, counted, ht]) ⟨keeps, fun h => absurd h adds⟩
  | up counted num keeps adds =>
    rw [num, counted]
    constructor
    · intro heq
      refine ⟨keeps, fun _ => ?_⟩
      have hfits : s.incremented < 2 ^ 32 := incremented_lt
      omega
    · intro hcounts
      have hinc := incremented_eq (hcounts.2 adds)
      omega
  | down counted num keeps adds =>
    have hdec := decremented_eq hlt (by omega)
    exact iff_of_true (by omega) ⟨keeps, fun h => absurd h adds⟩
  | lost counted num keeps =>
    exact iff_of_false (by omega) fun hcounts => hcounts.1 keeps

/-- **The counter tells the truth exactly as long as no task that has thrown is taken off.** In a
run the counter is, in every state, the number of tasks in `queue_` and in the batch and of calls in
flight, if and only if every task that the worker takes off has returned and no increment wraps
around. -/
theorem counter_truthful_iff
    (hr : run GuardThreadExecutor.step (initialized options) es = some u) :
    AllStates GuardThreadExecutor.step Truthful (initialized options) es ↔
      AllSteps GuardThreadExecutor.step Counts (initialized options) es := by
  refine allStates_iff_allSteps (I := Regular options) ?_ ?_ regular_initialized ?_ hr
  · exact fun s a t h hs => h.step (step_cases hs)
  · exact fun s a t h ht hs => truthful_step h ht (step_cases hs)
  · refine ⟨by simp [initialized, initializeWith, counted, hold, Worker.load], fun _ => ?_⟩
    simp [initialized, initializeWith]

/-- A task that returns is counted until its iteration ends. -/
theorem counter_truthful_iff_returned :
    ∃ u, run GuardThreadExecutor.step (initialized {}) [.start, .call, .execute 0, .execute 0,
      .execute 0, .execute 0, .worker, .worker, .worker, .taskEnds false, .worker] = some u ∧
      (AllStates GuardThreadExecutor.step Truthful (initialized {}) [.start, .call, .execute 0,
        .execute 0, .execute 0, .execute 0, .worker, .worker, .worker, .taskEnds false, .worker] ↔
      AllSteps GuardThreadExecutor.step Counts (initialized {}) [.start, .call, .execute 0,
        .execute 0, .execute 0, .execute 0, .worker, .worker, .worker, .taskEnds false,
        .worker]) := by
  obtain ⟨u, hu⟩ := Option.isSome_iff_exists.mp
    (show (run GuardThreadExecutor.step (initialized {}) [.start, .call, .execute 0, .execute 0,
      .execute 0, .execute 0, .worker, .worker, .worker, .taskEnds false, .worker]).isSome by
        decide +kernel)
  exact ⟨u, hu, counter_truthful_iff hu⟩

/-- After a task that has thrown the executor is idle and its counter is `1`. -/
theorem counter_leaks :
    ∃ u, run GuardThreadExecutor.step (initialized {}) [.start, .call, .execute 0, .execute 0,
      .execute 0, .execute 0, .worker, .worker, .worker, .taskEnds true, .worker] = some u ∧
      u.Idle ∧ u.queueTaskNum = 1 ∧ ¬ u.Truthful := by
  have h : ((run GuardThreadExecutor.step (initialized {}) [.start, .call, .execute 0, .execute 0,
      .execute 0, .execute 0, .worker, .worker, .worker, .taskEnds true, .worker]).map fun u =>
        ((u.queueTaskNum, u.worker.load), u.queue, u.calls)) =
      some ((1, 0), [], [⟨0, .pushed 1⟩]) := by
    decide +kernel
  obtain ⟨u, hu, hval⟩ := Option.map_eq_some_iff.mp h
  simp only [Prod.mk.injEq] at hval
  obtain ⟨⟨hnum, hload⟩, hqueue, hcalls⟩ := hval
  have hidle : u.Idle := by
    refine ⟨hload, hqueue, fun c hc => ⟨1, Or.inr ?_⟩⟩
    rw [hcalls, List.mem_singleton] at hc
    rw [hc]
  refine ⟨u, hu, hidle, hnum, fun ht => ?_⟩
  exact absurd (hnum.symm.trans (ht.2 hidle)) (by simp)

end GuardThreadExecutor

end Ados.GuardThread
