import Ados.GuardThread.Machine
import Ados.Lib.Bag
import Mathlib.Data.List.Nodup

/-!
# Accepted tasks run once and in order

A pushed task waits in `queue_`, then in the batch of the worker, unless the worker has left its
main loop: then it is run from the front of `queue_`, which it leaves when its run has ended.
Through all of this the tasks begun, the tasks of the batch not yet begun and the tasks waiting in
`queue_` are, in this order, the tasks pushed.

## Main definitions

* `Worker.unbegun`, `Worker.current`: the tasks of the batch behind the one that runs, and that one
* `GuardThreadExecutor.waiting`: `queue_` without the task that the drain has begun
* `GuardThreadExecutor.InOrder`: the invariant

## Main results

* `GuardThreadExecutor.run_in_order`: every run keeps the order, and a worker that has exited has
  run the tasks pushed before its last look at `queue_`
-/

namespace Ados.GuardThread

open Transition

namespace Worker

/-- The tasks of the batch that have not begun. -/
def unbegun : Worker → List ℕ
  | .batch tmpQueue => tmpQueue
  | .running _ rest => rest
  | .finished _ rest _ => rest
  | _ => []

/-- The task that is being run. -/
def current : Worker → List ℕ
  | .running task _ => [task]
  | .draining task => [task]
  | _ => []

/-- The task at the front of `queue_` that the drain has begun and not yet popped. -/
def drainFront : Worker → Option ℕ
  | .draining task => some task
  | .drained task _ => some task
  | _ => none

end Worker

namespace GuardThreadExecutor

@[simp] theorem notified_unbegun (w : Worker) : (notified w).unbegun = w.unbegun := by
  cases w <;> rfl

@[simp] theorem notified_current (w : Worker) : (notified w).current = w.current := by
  cases w <;> rfl

@[simp] theorem notified_drainFront (w : Worker) : (notified w).drainFront = w.drainFront := by
  cases w <;> rfl

/-- `queue_` without the task that the drain has begun. -/
def waiting (s : GuardThreadExecutor) : List ℕ :=
  if s.worker.drainFront.isSome then s.queue.tail else s.queue

/-- The tasks begun, the tasks of the batch and the tasks waiting are the tasks pushed; those begun
have ended, but for the one that runs. -/
structure InOrder (s : GuardThreadExecutor) : Prop where
  order : s.begun ++ s.worker.unbegun ++ s.waiting = s.pushed
  front : ∀ task, s.worker.drainFront = some task → s.queue.head? = some task
  ended : s.begun = s.ended.map Prod.fst ++ s.worker.current

variable {s s' u : GuardThreadExecutor} {a : Act} {es : List Act} {options : Options}

theorem inOrder_initialized : InOrder (initialized options) :=
  ⟨rfl, by simp [initialized, initializeWith, Worker.drainFront], rfl⟩

/-- A step that leaves the queue, the batch and the history as they are. -/
theorem InOrder.congr (h : InOrder s) (hqueue : s'.queue = s.queue)
    (hunbegun : s'.worker.unbegun = s.worker.unbegun)
    (hcurrent : s'.worker.current = s.worker.current)
    (hfront : s'.worker.drainFront = s.worker.drainFront) (hpushed : s'.pushed = s.pushed)
    (hbegun : s'.begun = s.begun) (hended : s'.ended = s.ended) : InOrder s' := by
  refine ⟨?_, ?_, ?_⟩
  · rw [waiting, hbegun, hunbegun, hfront, hqueue, hpushed]
    exact h.order
  · rw [hfront, hqueue]
    exact h.front
  · rw [hbegun, hended, hcurrent]
    exact h.ended

/-- One step keeps the order. In the drain the front of `queue_` has begun and stays where it is, so
that a new task goes behind it. -/
theorem InOrder.step (h : InOrder s) (hinit : s.state ≠ .preInit) (hs : Step s a s') :
    InOrder s' := by
  have horder := h.order
  have hended := h.ended
  cases hs with
  | initializes hpre => exact absurd hpre hinit
  | initializeRejected _ | start | shutdownAgain _ | shutdown _ | shutdownJoin _ _ | call
  | load _ _ | increment _ _ | refuse _ _ _ | accept _ _ _ | reject _ _ =>
    exact h.congr rfl rfl rfl rfl rfl rfl rfl
  | shutdownNotify _ => exact h.congr rfl (by simp) (by simp) (by simp) rfl rfl rfl
  | leaves hw _ | waits hw _ | sleeps hw _ _ | batchEnds hw | exits hw _ | wakeUp hw =>
    exact h.congr rfl (by simp [hw, Worker.unbegun]) (by simp [hw, Worker.current])
      (by simp [hw, Worker.drainFront]) rfl rfl rfl
  | @push i c cur hc hpc =>
    refine ⟨?_, ?_, by simpa using hended⟩
    · rw [← horder]
      simp only [waiting, notified_unbegun, notified_drainFront, List.append_assoc]
      split
      · next hdrain =>
        obtain ⟨task, htask⟩ := Option.isSome_iff_exists.mp hdrain
        have hmem : task ∈ s.queue := List.mem_of_mem_head? (h.front _ htask)
        rw [List.tail_append_of_ne_nil (List.ne_nil_of_mem hmem)]
      · rfl
    · intro task htask
      have hhead := h.front task (by simpa using htask)
      simp only [List.head?_append, hhead, Option.some_or]
  | takes hw _ =>
    rw [hw] at horder hended
    refine ⟨?_, by simp [Worker.drainFront], hended⟩
    simpa [waiting, hw, Worker.unbegun, Worker.drainFront] using horder
  | @begins task rest hw =>
    rw [hw] at horder hended
    refine ⟨?_, by simp [Worker.drainFront], by simp [hended, Worker.current]⟩
    simpa [waiting, hw, Worker.unbegun, Worker.drainFront] using horder
  | finishes hw =>
    rw [hw] at horder hended
    refine ⟨?_, by simp [Worker.drainFront], hended⟩
    simpa [waiting, hw, Worker.unbegun, Worker.drainFront] using horder
  | @drains task rest hw hq =>
    rw [hw] at horder hended
    refine ⟨?_, ?_, by simp [hended, Worker.current]⟩
    · simpa [waiting, hw, hq, Worker.unbegun, Worker.drainFront] using horder
    · simp [Worker.drainFront, hq]
  | pops hw =>
    rw [hw] at horder hended
    refine ⟨?_, by simp [Worker.drainFront], hended⟩
    simpa [waiting, hw, Worker.unbegun, Worker.drainFront] using horder
  | ends hw =>
    rw [hw] at horder hended
    refine ⟨?_, by simp [Worker.drainFront], by simpa [Worker.current] using hended⟩
    simpa [waiting, hw, Worker.unbegun, Worker.drainFront] using horder
  | @drainEnds task threw hw =>
    rw [hw] at horder hended
    refine ⟨?_, ?_, by simpa [Worker.current] using hended⟩
    · simpa [waiting, hw, Worker.unbegun, Worker.drainFront] using horder
    · simpa [Worker.drainFront] using h.front task (by simp [hw, Worker.drainFront])

/-! ## The numbers of the tasks -/

/-- A task is the number of its call, and the tasks pushed are those of the calls that have pushed;
so no task is pushed twice. -/
structure Numbered (s : GuardThreadExecutor) : Prop where
  task : ∀ (i : ℕ) (c : ExecuteCall), s.calls[i]? = some c → c.task = i
  pushed : ∀ i ∈ s.pushed, ∃ cur : ℕ, s.calls[i]? = some ⟨i, .pushed cur⟩
  done : ∀ (i : ℕ) (c : ExecuteCall) (cur : ℕ), s.calls[i]? = some c → c.pc = .pushed cur →
    i ∈ s.pushed
  nodup : s.pushed.Nodup

theorem numbered_initialized : Numbered (initialized options) :=
  ⟨by simp [initialized, initializeWith], by simp [initialized, initializeWith],
    by simp [initialized, initializeWith], List.nodup_nil⟩

theorem Numbered.congr (h : Numbered s) (hcalls : s'.calls = s.calls)
    (hpushed : s'.pushed = s.pushed) : Numbered s' := by
  refine ⟨?_, ?_, ?_, ?_⟩
  · rw [hcalls]; exact h.task
  · rw [hcalls, hpushed]; exact h.pushed
  · rw [hcalls, hpushed]; exact h.done
  · rw [hpushed]; exact h.nodup

/-- A call that has not pushed its task moves on. -/
theorem Numbered.move (h : Numbered s) {i : ℕ} {c : ExecuteCall} {pc : ExecutePc}
    (hc : s.calls[i]? = some c) (hpc : ∀ cur, c.pc ≠ .pushed cur) :
    (∀ (j : ℕ) (d : ExecuteCall), (s.move i c pc)[j]? = some d → d.task = j) ∧
      (∀ j ∈ s.pushed, j ≠ i ∧ ∃ cur, (s.move i c pc)[j]? = some ⟨j, .pushed cur⟩) ∧
      ∀ (j : ℕ) (d : ExecuteCall) (cur : ℕ), (s.move i c pc)[j]? = some d → d.pc = .pushed cur →
        j ∈ s.pushed ∨ j = i ∧ pc = .pushed cur := by
  obtain ⟨hlt, -⟩ := List.getElem?_eq_some_iff.mp hc
  refine ⟨?_, ?_, ?_⟩
  · intro j d hd
    rw [GuardThreadExecutor.move, List.getElem?_set] at hd
    split at hd
    · next hij =>
      subst hij
      cases hd
      exact h.task i c hc
    · exact h.task j d hd
  · intro j hj
    obtain ⟨cur, hcur⟩ := h.pushed j hj
    have hne : j ≠ i := by
      rintro rfl
      rw [hc] at hcur
      cases hcur
      exact hpc cur rfl
    refine ⟨hne, cur, ?_⟩
    rw [GuardThreadExecutor.move, List.getElem?_set_ne hne.symm]
    exact hcur
  · intro j d cur hd hdone
    rw [GuardThreadExecutor.move, List.getElem?_set] at hd
    split at hd
    · next hij =>
      cases hd
      exact Or.inr ⟨hij.symm, hdone⟩
    · exact Or.inl (h.done j d cur hd hdone)

/-- One step keeps the numbers: a call that pushes had not pushed before. -/
theorem Numbered.step (h : Numbered s) (hs : Step s a s') : Numbered s' := by
  cases hs with
  | call =>
    have hcall : ∀ (i : ℕ) (c : ExecuteCall),
        (s.calls ++ [⟨s.calls.length, .load⟩])[i]? = some c →
          s.calls[i]? = some c ∨ i = s.calls.length ∧ c = ⟨s.calls.length, .load⟩ := by
      intro i c hc
      rw [List.getElem?_append] at hc
      split at hc
      · exact Or.inl hc
      · next hlt =>
        obtain ⟨hi, hc⟩ := List.getElem?_eq_some_iff.mp hc
        rw [List.length_singleton] at hi
        obtain rfl : i = s.calls.length := by omega
        exact Or.inr ⟨rfl, by simpa using hc.symm⟩
    refine ⟨?_, ?_, ?_, h.nodup⟩
    · intro i c hc
      rcases hcall i c hc with hc | ⟨rfl, rfl⟩
      · exact h.task i c hc
      · rfl
    · intro i hi
      obtain ⟨cur, hcur⟩ := h.pushed i hi
      obtain ⟨hlt, -⟩ := List.getElem?_eq_some_iff.mp hcur
      exact ⟨cur, by rw [List.getElem?_append_left hlt, hcur]⟩
    · intro i c cur hc hdone
      rcases hcall i c hc with hc | ⟨rfl, rfl⟩
      · exact h.done i c cur hc hdone
      · exact absurd hdone (by simp)
  | load hc hpc | increment hc hpc | refuse hc hpc _ | accept hc hpc _ | reject hc hpc =>
    obtain ⟨htask, hpushed, hdone⟩ := h.move hc (by simp [hpc])
    refine ⟨htask, fun j hj => (hpushed j hj).2, fun j d cur hd hcur => ?_, h.nodup⟩
    exact (hdone j d cur hd hcur).resolve_right (by simp)
  | @push i c cur hc hpc =>
    have hfree : ∀ k, c.pc ≠ .pushed k := by simp [hpc]
    obtain ⟨htask, hpushed, hdone⟩ := h.move hc hfree
    obtain ⟨hlt, -⟩ := List.getElem?_eq_some_iff.mp hc
    have hi := h.task i c hc
    refine ⟨htask, ?_, ?_, ?_⟩
    · intro j hj
      rcases List.mem_append.mp hj with hj | hj
      · exact (hpushed j hj).2
      · obtain rfl : j = i := (List.mem_singleton.mp hj).trans hi
        refine ⟨cur, ?_⟩
        rw [GuardThreadExecutor.move, List.getElem?_set_self hlt, hi]
    · intro j d k hd hcur
      rcases hdone j d k hd hcur with hj | ⟨rfl, -⟩
      · exact List.mem_append_left _ hj
      · exact List.mem_append_right _ (List.mem_singleton.mpr hi.symm)
    · rw [List.nodup_append]
      refine ⟨h.nodup, by simp, ?_⟩
      intro j hj k hk
      rw [List.mem_singleton.mp hk, hi]
      exact (hpushed j hj).1
  | _ => exact h.congr rfl rfl

/-! ## Runs -/

theorem run_options (hr : run GuardThreadExecutor.step (initialized options) es = some u) :
    u.state ≠ .preInit ∧ u.options = options :=
  run_invariant (P := fun s => s.state ≠ .preInit ∧ s.options = options)
    (fun _ _ _ h hs => (step_cases hs).options_eq h) ⟨by simp [initialized, initializeWith], rfl⟩ hr

theorem run_inOrder (hr : run GuardThreadExecutor.step (initialized options) es = some u) :
    InOrder u := by
  refine (run_invariant (P := fun s => (s.state ≠ .preInit ∧ s.options = options) ∧ InOrder s) ?_
    ⟨⟨by simp [initialized, initializeWith], rfl⟩, inOrder_initialized⟩ hr).2
  rintro s a t ⟨hopt, h⟩ hs
  exact ⟨(step_cases hs).options_eq hopt, h.step hopt.1 (step_cases hs)⟩

theorem run_numbered (hr : run GuardThreadExecutor.step (initialized options) es = some u) :
    Numbered u :=
  run_invariant (fun _ _ _ h hs => h.step (step_cases hs)) numbered_initialized hr

/-- The worker exits at its check of an empty `queue_`. -/
theorem Step.exits_of (hs : Step s a s') (hinit : s.state ≠ .preInit)
    (hbefore : s.worker ≠ .exited) (hafter : s'.worker = .exited) :
    a = .worker ∧ s.worker = .drain ∧ s.queue = [] ∧ s'.begun = s.begun ∧ s'.ended = s.ended := by
  have hnotified : ∀ w : Worker, notified w = .exited → w = .exited := by
    intro w hw
    cases w <;> simp [notified] at hw ⊢
  cases hs with
  | initializes hpre => exact absurd hpre hinit
  | exits hw hq => exact ⟨rfl, hw, hq, rfl, rfl⟩
  | push _ _ | shutdownNotify _ => exact absurd (hnotified _ hafter) hbefore
  | leaves _ _ | waits _ _ | takes _ _ | sleeps _ _ _ | batchEnds _ | begins _ | finishes _
  | drains _ _ | pops _ | ends _ | drainEnds _ | wakeUp _ => exact absurd hafter (by simp)
  | _ => exact absurd hafter hbefore

/-- A worker that has exited takes no step. -/
theorem Step.of_exited (hs : Step s a s') (hinit : s.state ≠ .preInit) (hw : s.worker = .exited) :
    a ≠ .worker ∧ s'.worker = .exited ∧ s'.begun = s.begun ∧ s'.ended = s.ended := by
  cases hs with
  | initializes hpre => exact absurd hpre hinit
  | push _ _ | shutdownNotify _ => exact ⟨by simp, by simp [hw, notified], rfl, rfl⟩
  | leaves hw' _ | waits hw' _ | takes hw' _ | sleeps hw' _ _ | batchEnds hw' | begins hw'
  | finishes hw' | exits hw' _ | drains hw' _ | pops hw' | ends hw' | drainEnds hw' | wakeUp hw' =>
    exact absurd (hw.symm.trans hw') (by simp)
  | _ => exact ⟨by simp, hw, rfl, rfl⟩

theorem run_of_exited {v : GuardThreadExecutor} (hinit : v.state ≠ .preInit)
    (hw : v.worker = .exited) (hr : run GuardThreadExecutor.step v es = some u) :
    u.worker = .exited ∧ u.begun = v.begun ∧ u.ended = v.ended := by
  refine (run_invariant (P := fun s => (s.state ≠ .preInit ∧ s.options = v.options) ∧
    s.worker = .exited ∧ s.begun = v.begun ∧ s.ended = v.ended) ?_
    ⟨⟨hinit, rfl⟩, hw, rfl, rfl⟩ hr).2
  rintro s a t ⟨hopt, hw, hbegun, hended⟩ hs
  have hstep := step_cases hs
  obtain ⟨-, hw', hbegun', hended'⟩ := hstep.of_exited hopt.1 hw
  exact ⟨hstep.options_eq hopt, hw', hbegun'.trans hbegun, hended'.trans hended⟩

/-- **Accepted tasks run once and in the order of their pushes.** In every reachable state the tasks
begun, the rest of the batch and `queue_` are the tasks pushed, where `queue_` counts without its
front while the final drain is running that. A worker that has exited has run, and ended, the tasks
pushed before its last look at `queue_`, each once and in that order. -/
theorem run_in_order (hr : run GuardThreadExecutor.step (initialized options) es = some u) :
    u.pushed.Nodup ∧
    (u.worker.drainFront = none → u.begun ++ u.worker.unbegun ++ u.queue = u.pushed) ∧
    (∀ task, u.worker.drainFront = some task →
      ∃ rest, u.queue = task :: rest ∧ u.begun ++ u.worker.unbegun ++ rest = u.pushed) ∧
    (u.worker = .exited → ∃ es₁ es₂ s s', es = es₁ ++ .worker :: es₂ ∧
      run GuardThreadExecutor.step (initialized options) es₁ = some s ∧ s.worker = .drain ∧
      s.queue = [] ∧ GuardThreadExecutor.step s .worker = some s' ∧ s'.worker = .exited ∧
      run GuardThreadExecutor.step s' es₂ = some u ∧ (∀ a ∈ es₂, a ≠ .worker) ∧
      u.begun = s.pushed ∧ u.ended.map Prod.fst = s.pushed) := by
  have h := run_inOrder hr
  have horder := h.order
  refine ⟨(run_numbered hr).nodup, ?_, ?_, ?_⟩
  · intro hdrain
    simpa [waiting, hdrain] using horder
  · intro task hdrain
    obtain ⟨rest, hrest⟩ := List.head?_eq_some_iff.mp (h.front task hdrain)
    exact ⟨rest, hrest, by simpa [waiting, hdrain, hrest] using horder⟩
  · intro hexited
    obtain ⟨es₁, a, es₂, s, s', rfl, hr₁, hbefore, hstep, hafter, hr₂⟩ :=
      exists_step_of_run (P := fun s => s.worker = .exited)
        (by simp [initialized, initializeWith]) hr hexited
    have hinit := (run_options hr₁).1
    have hinit' := ((step_cases hstep).options_eq ⟨hinit, rfl⟩).1
    obtain ⟨rfl, hdrain, hqueue, hbegun, hended⟩ :=
      (step_cases hstep).exits_of hinit hbefore hafter
    obtain ⟨-, hbegun', hended'⟩ := run_of_exited hinit' hafter hr₂
    have hs := run_inOrder hr₁
    have hall : s.begun = s.pushed := by
      simpa [waiting, hdrain, hqueue, Worker.unbegun, Worker.drainFront] using hs.order
    have hdone : s.begun = s.ended.map Prod.fst := by
      simpa [hdrain, Worker.current] using hs.ended
    refine ⟨es₁, es₂, s, s', rfl, hr₁, hdrain, hqueue, hstep, hafter, hr₂, ?_, ?_, ?_⟩
    · intro a ha
      obtain ⟨fs, gs, rfl⟩ := List.append_of_mem ha
      obtain ⟨t, ht, hrest⟩ := run_append_eq_some.mp hr₂
      obtain ⟨t', ht', -⟩ := run_cons_eq_some.mp hrest
      obtain ⟨hexited', -, -⟩ := run_of_exited hinit' hafter ht
      have htinit : t.state ≠ .preInit :=
        (run_options (run_append_eq_some.mpr
          ⟨s, hr₁, run_cons_eq_some.mpr ⟨s', hstep, ht⟩⟩)).1
      exact ((step_cases ht').of_exited htinit hexited').1
    · rw [hbegun', hbegun, hall]
    · rw [hended', hended, ← hdone, hall]

/-- One task, run by the drain of a worker that then exits. -/
theorem run_in_order_exits :
    ∃ u, run GuardThreadExecutor.step (initialized {}) [.start, .call, .execute 0, .execute 0,
      .execute 0, .execute 0, .shutdown, .worker, .worker, .taskEnds false, .worker, .worker] =
        some u ∧
      u.worker = .exited ∧ u.begun ++ u.worker.unbegun ++ u.queue = u.pushed ∧
      ∃ es₁ s, run GuardThreadExecutor.step (initialized {}) es₁ = some s ∧
        u.ended.map Prod.fst = s.pushed := by
  have h : ((run GuardThreadExecutor.step (initialized {}) [.start, .call, .execute 0, .execute 0,
      .execute 0, .execute 0, .shutdown, .worker, .worker, .taskEnds false, .worker, .worker]).map
        (·.worker)) = some .exited := by
    decide +kernel
  obtain ⟨u, hu, hexited⟩ := Option.map_eq_some_iff.mp h
  obtain ⟨-, hbetween, -, hlast⟩ := run_in_order hu
  obtain ⟨es₁, -, s, -, -, hs, -, -, -, -, -, -, -, hended⟩ := hlast hexited
  exact ⟨u, hu, hexited, hbetween (by rw [hexited]; rfl), es₁, s, hs, hended⟩

/-- While the final drain runs a task, that task is still in `queue_`. -/
theorem drained_task_in_queue :
    ∃ u, run GuardThreadExecutor.step (initialized {}) [.start, .call, .execute 0, .execute 0,
      .execute 0, .execute 0, .shutdown, .worker, .worker] = some u ∧
      u.begun ++ u.worker.unbegun ++ u.queue ≠ u.pushed := by
  have h : ((run GuardThreadExecutor.step (initialized {}) [.start, .call, .execute 0, .execute 0,
      .execute 0, .execute 0, .shutdown, .worker, .worker]).map fun u =>
        decide (u.begun ++ u.worker.unbegun ++ u.queue = u.pushed)) = some false := by
    decide +kernel
  obtain ⟨u, hu, hne⟩ := Option.map_eq_some_iff.mp h
  exact ⟨u, hu, of_decide_eq_false hne⟩

end GuardThreadExecutor

end Ados.GuardThread
