import Ados.GuardThread.Order

/-!
# Lifecycle calls

`Execute` goes on after it has found `state_` not to be `kStart`, so a task can be pushed when
nobody is left to run it: that is so exactly if the worker has made its last check of `queue_`
before. `Initialize` and `Start` write their state before they test the old one, so a call that is
rejected leaves the state it should have left alone, unless that was the state it wrote.

## Main definitions

* `GuardThreadExecutor.PushesLate`: the push of a call after the worker has exited
* `GuardThreadExecutor.NoneStranded`: after `Shutdown` the worker has run every task accepted
* `GuardThreadExecutor.Rejects`: a lifecycle call that throws for the state it finds
* `GuardThreadExecutor.Harmless`: if it is rejected, it writes the state that is there

## Main results

* `GuardThreadExecutor.none_stranded`: no task is stranded as long as no push is late
* `GuardThreadExecutor.rejected_iff`: rejected calls leave the state as it was exactly as long as
  they are harmless, and then a started executor has a worker in its loop
-/

namespace Ados.GuardThread

open Transition

/-- There is a worker, and it has not left its main loop. -/
def Worker.InLoop : Worker → Prop
  | .notCreated | .drain | .draining _ | .drained _ _ | .exited => False
  | _ => True

namespace GuardThreadExecutor

variable {s s' u v : GuardThreadExecutor} {a : Act} {es : List Act} {options : Options}

/-! ## After `Shutdown` -/

/-- The worker has made its last check of `queue_`, and a call pushes its task. -/
def PushesLate (s : GuardThreadExecutor) : Act → Prop
  | .execute i => s.worker = .exited ∧ ∃ c cur, s.calls[i]? = some c ∧ c.pc = .push cur
  | _ => False

/-- After `Shutdown` has joined the worker, `queue_` is empty, and the task of every call that has
not refused it has been run. -/
def NoneStranded (s : GuardThreadExecutor) : Prop :=
  .returned ∈ s.shutdowns → s.queue = [] ∧
    ∀ c ∈ s.calls, ∀ cur, c.pc = .pushed cur → c.task ∈ s.ended.map Prod.fst

/-- There is a worker, and `Shutdown` returns after it has exited. -/
structure Joined (s : GuardThreadExecutor) : Prop where
  init : s.state ≠ .preInit
  created : s.worker ≠ .notCreated
  exited : .returned ∈ s.shutdowns → s.worker = .exited

theorem joined_initialized : Joined (initialized options) := by
  refine ⟨?_, ?_, ?_⟩ <;> simp [initialized, initializeWith]

@[simp] theorem notified_eq_exited {w : Worker} : notified w = .exited ↔ w = .exited := by
  cases w <;> simp [notified]

@[simp] theorem notified_eq_notCreated {w : Worker} :
    notified w = .notCreated ↔ w = .notCreated := by
  cases w <;> simp [notified]

theorem Joined.step (h : Joined s) (hs : Step s a s') : Joined s' := by
  have hinit := (hs.options_eq ⟨h.init, rfl⟩).1
  cases hs with
  | initializes hpre => exact absurd hpre h.init
  | shutdown _ =>
    refine ⟨hinit, h.created, fun hret => h.exited ?_⟩
    simpa using hret
  | shutdownNotify _ =>
    refine ⟨hinit, by simpa using h.created, fun hret => ?_⟩
    rcases List.mem_or_eq_of_mem_set hret with hret | hret
    · simpa using h.exited hret
    · exact absurd hret (by simp)
  | shutdownJoin _ hw => exact ⟨hinit, h.created, fun _ => hw.resolve_left h.created⟩
  | push _ _ => exact ⟨hinit, by simpa using h.created, fun hret => by simpa using h.exited hret⟩
  | leaves hw _ | waits hw _ | takes hw _ | sleeps hw _ _ | batchEnds hw | begins hw | finishes hw
  | exits hw _ | drains hw _ | pops hw | ends hw | drainEnds hw | wakeUp hw =>
    refine ⟨hinit, by simp, fun hret => ?_⟩
    have hexited := h.exited hret
    simp [hw] at hexited
  | _ => exact ⟨hinit, h.created, h.exited⟩

/-- After the worker has exited, `queue_` grows with every push and never shrinks. -/
theorem Step.queue_of_exited (hs : Step s a s') (hw : s.worker = .exited)
    (hinit : s.state ≠ .preInit) :
    s.queue <+: s'.queue ∧ (s.PushesLate a → s'.queue ≠ []) ∧
      (¬ s.PushesLate a → s'.queue = s.queue) := by
  cases hs with
  | initializes hpre => exact absurd hpre hinit
  | @push i c cur hc hpc =>
    refine ⟨List.prefix_append _ _, fun _ => by simp, fun hlate => ?_⟩
    exact absurd ⟨hw, c, cur, hc, hpc⟩ hlate
  | load hc hpc | increment hc hpc | refuse hc hpc _ | accept hc hpc _ | reject hc hpc =>
    refine ⟨List.prefix_refl _, ?_, fun _ => rfl⟩
    rintro ⟨-, d, cur, hd, hdpc⟩
    rw [hc] at hd
    cases hd
    exact absurd (hpc.symm.trans hdpc) (by simp)
  | leaves hw' _ | waits hw' _ | takes hw' _ | sleeps hw' _ _ | batchEnds hw' | begins hw'
  | finishes hw' | exits hw' _ | drains hw' _ | pops hw' | ends hw' | drainEnds hw' | wakeUp hw' =>
    exact absurd (hw.symm.trans hw') (by simp)
  | _ => exact ⟨List.prefix_refl _, False.elim, fun _ => rfl⟩

theorem run_queue_of_exited (hinit : v.state ≠ .preInit) (hw : v.worker = .exited)
    (hr : run GuardThreadExecutor.step v es = some u) : v.queue <+: u.queue := by
  refine (run_invariant (P := fun s => (s.state ≠ .preInit ∧ s.options = v.options) ∧
    s.worker = .exited ∧ v.queue <+: s.queue) ?_ ⟨⟨hinit, rfl⟩, hw, List.prefix_refl _⟩ hr).2.2
  rintro s a t ⟨hopt, hw, hprefix⟩ hs
  have hstep := step_cases hs
  exact ⟨hstep.options_eq hopt, (hstep.of_exited hopt.1 hw).2.1,
    hprefix.trans (hstep.queue_of_exited hw hopt.1).1⟩

/-- What is known of a run without a late push. -/
structure Drained (s : GuardThreadExecutor) : Prop where
  joined : Joined s
  order : InOrder s
  numbered : Numbered s
  queue : s.worker = .exited → s.queue = []

theorem drained_initialized : Drained (initialized options) :=
  ⟨joined_initialized, inOrder_initialized, numbered_initialized,
    by simp [initialized, initializeWith]⟩

theorem Drained.step (h : Drained s) (hq : ¬ s.PushesLate a) (hs : Step s a s') : Drained s' := by
  have hinit := h.joined.init
  refine ⟨h.joined.step hs, h.order.step hinit hs, h.numbered.step hs, fun hafter => ?_⟩
  by_cases hbefore : s.worker = .exited
  · rw [(hs.queue_of_exited hbefore hinit).2.2 hq]
    exact h.queue hbefore
  · -- the worker exits at its check of an empty `queue_`
    obtain ⟨rfl, hdrain, hempty, -, -⟩ := hs.exits_of hinit hbefore hafter
    cases hs with
    | exits _ hq => exact hq
    | drains _ hq => exact absurd (hempty.symm.trans hq) (by simp)
    | leaves hw _ | waits hw _ | takes hw _ | sleeps hw _ _ | batchEnds hw | begins hw
    | finishes hw | pops hw => exact absurd (hdrain.symm.trans hw) (by simp)

theorem Drained.noneStranded (h : Drained s) : NoneStranded s := by
  intro hret
  have hw := h.joined.exited hret
  have hqueue := h.queue hw
  refine ⟨hqueue, fun c hc cur hpc => ?_⟩
  obtain ⟨i, hi⟩ := List.mem_iff_getElem?.mp hc
  have hpushed := h.numbered.done i c cur hi hpc
  have horder := h.order.order
  have hended := h.order.ended
  rw [hw] at horder hended
  simp only [Worker.current, Worker.unbegun, waiting, hw, hqueue, Worker.drainFront,
    List.append_nil, List.tail_nil, ite_self] at horder hended
  rw [h.numbered.task i c hi, ← hended, horder]
  exact hpushed

/-- **No accepted task is stranded as long as no push comes after the worker's last check.** A late
push is never undone: a run in which one has happened does not end with an empty `queue_`. -/
theorem none_stranded (hr : run GuardThreadExecutor.step (initialized options) es = some u) :
    (AllSteps GuardThreadExecutor.step (fun s a => ¬ s.PushesLate a) (initialized options) es →
      AllStates GuardThreadExecutor.step NoneStranded (initialized options) es) ∧
    (u.queue = [] →
      AllSteps GuardThreadExecutor.step (fun s a => ¬ s.PushesLate a) (initialized options)
        es) := by
  refine ⟨fun hq => ?_, fun hempty => ?_⟩
  · have h := allStates_of_allSteps (P := Drained) (fun s a t h hq hs => h.step hq (step_cases hs))
      (drained_initialized : Drained (initialized options)) hq
    exact h.imp fun _ h => h.noneStranded
  · refine allSteps_of_run hr fun es₁ a es₂ s t hs ht hrest hlate => ?_
    have hinit := (run_options hs).1
    have hstep := step_cases ht
    have hw : s.worker = .exited := by
      cases a <;> simp only [PushesLate] at hlate
      exact hlate.1
    have hne := (hstep.queue_of_exited hw hinit).2.1 hlate
    have hprefix := run_queue_of_exited (hstep.options_eq ⟨hinit, rfl⟩).1
      (hstep.of_exited hinit hw).2.1 hrest
    rw [hempty] at hprefix
    exact hne (List.prefix_nil.mp hprefix)

/-- One task, which the worker runs before `Shutdown` returns. -/
theorem none_stranded_returned :
    ∃ u, run GuardThreadExecutor.step (initialized {}) [.start, .call, .execute 0, .execute 0,
      .execute 0, .execute 0, .shutdown, .worker, .worker, .taskEnds false, .worker, .worker,
      .shutdownNotify 0, .shutdownJoin 0] = some u ∧ .returned ∈ u.shutdowns ∧ NoneStranded u := by
  have h : ((run GuardThreadExecutor.step (initialized {}) [.start, .call, .execute 0, .execute 0,
      .execute 0, .execute 0, .shutdown, .worker, .worker, .taskEnds false, .worker, .worker,
      .shutdownNotify 0, .shutdownJoin 0]).map fun u => (u.shutdowns, u.queue)) =
        some ([.returned], []) := by
    decide +kernel
  obtain ⟨u, hu, hval⟩ := Option.map_eq_some_iff.mp h
  obtain ⟨hshut, hqueue⟩ := Prod.mk.inj hval
  obtain ⟨hall, hnone⟩ := none_stranded hu
  exact ⟨u, hu, by simp [hshut], (hall (hnone hqueue)).last hu⟩

/-- `Execute` after `Shutdown` has returned pushes a task that stays in `queue_`. -/
theorem task_stranded :
    ∃ u, run GuardThreadExecutor.step (initialized {}) [.start, .shutdown, .worker, .worker,
      .shutdownNotify 0, .shutdownJoin 0, .call, .execute 0, .execute 0, .execute 0, .execute 0] =
        some u ∧ .returned ∈ u.shutdowns ∧ u.queue = [0] ∧ ¬ NoneStranded u := by
  have h : ((run GuardThreadExecutor.step (initialized {}) [.start, .shutdown, .worker, .worker,
      .shutdownNotify 0, .shutdownJoin 0, .call, .execute 0, .execute 0, .execute 0,
      .execute 0]).map fun u => (u.shutdowns, u.queue)) = some ([.returned], [0]) := by
    decide +kernel
  obtain ⟨u, hu, hval⟩ := Option.map_eq_some_iff.mp h
  obtain ⟨hshut, hqueue⟩ := Prod.mk.inj hval
  have hret : ShutdownPc.returned ∈ u.shutdowns := by simp [hshut]
  refine ⟨u, hu, hret, hqueue, fun hnone => ?_⟩
  exact absurd ((hnone hret).1.symm.trans hqueue) (by simp)

/-! ## Rejected calls -/

/-- The call throws because `state_` is not the one it needs. -/
def Rejects (s : GuardThreadExecutor) : Act → Prop
  | .initializeWith options => (s.initializeWith options).2 ≠ none
  | .start => s.start.2 ≠ none
  | _ => False

/-- If the call is rejected, it writes the state that is there. -/
def Harmless (s : GuardThreadExecutor) : Act → Prop
  | .initializeWith _ => s.state = .preInit ∨ s.state = .init
  | .start => s.state = .init ∨ s.state = .start
  | _ => True

/-- A call that is rejected leaves `state_` as it was. -/
def LeavesState (s : GuardThreadExecutor) (a : Act) : Prop :=
  s.Rejects a → ∀ t, GuardThreadExecutor.step s a = some t → t.state = s.state

/-- Once `state_` is `kShutdown` it stays so. -/
def StaysShutdown (s : GuardThreadExecutor) (a : Act) : Prop :=
  s.state = .shutdown → ∀ t, GuardThreadExecutor.step s a = some t → t.state = .shutdown

/-- A started executor has a worker in its loop. -/
def WorksWhileStarted (s : GuardThreadExecutor) : Prop := s.state = .start → s.worker.InLoop

theorem leavesState_iff : s.LeavesState a ↔ s.Harmless a := by
  cases a with
  | initializeWith options =>
    by_cases hpre : s.state = .preInit
    · simp [LeavesState, Rejects, Harmless, initializeWith, hpre]
    · simp [LeavesState, Rejects, Harmless, initializeWith, hpre, GuardThreadExecutor.step, eq_comm]
  | start =>
    by_cases hinit : s.state = .init
    · simp [LeavesState, Rejects, Harmless, start, hinit]
    · simp [LeavesState, Rejects, Harmless, start, hinit, GuardThreadExecutor.step, eq_comm]
  | _ => exact iff_of_true (fun h => h.elim) trivial

/-- The worker leaves its loop only after it has read `kShutdown`. -/
structure Lively (s : GuardThreadExecutor) : Prop where
  notCreated : s.state = .preInit → s.worker = .notCreated
  inLoop : s.state = .init ∨ s.state = .start → s.worker.InLoop

theorem lively_new : Lively {} := ⟨fun _ => rfl, by simp⟩

theorem notified_inLoop {w : Worker} : (notified w).InLoop ↔ w.InLoop := by
  cases w <;> simp [notified, Worker.InLoop]

theorem Lively.step (h : Lively s) (hq : s.Harmless a) (hs : Step s a s') : Lively s' := by
  cases hs with
  | initializes _ => exact ⟨by simp, fun _ => trivial⟩
  | initializeRejected hpre =>
    exact ⟨by simp, fun _ => h.inLoop (Or.inl (hq.resolve_left hpre))⟩
  | start => exact ⟨by simp, fun _ => h.inLoop hq⟩
  | shutdown _ => exact ⟨by simp, by simp⟩
  | leaves _ hstate => exact ⟨by simp [hstate], by simp [hstate]⟩
  | shutdownNotify _ | push _ _ =>
    refine ⟨fun hpre => ?_, fun hstate => notified_inLoop.mpr (h.inLoop hstate)⟩
    simp [h.notCreated hpre, notified]
  | waits hw _ | takes hw _ | sleeps hw _ _ | batchEnds hw | begins hw | finishes hw | ends hw
  | wakeUp hw =>
    refine ⟨fun hpre => ?_, fun _ => trivial⟩
    exact absurd (hw.symm.trans (h.notCreated hpre)) (by simp)
  | exits hw _ | drains hw _ | pops hw | drainEnds hw =>
    refine ⟨fun hpre => absurd (hw.symm.trans (h.notCreated hpre)) (by simp), fun hstate => ?_⟩
    have hloop := h.inLoop hstate
    simp [hw, Worker.InLoop] at hloop
  | _ => exact ⟨h.notCreated, h.inLoop⟩

/-- A harmless call does not end `kShutdown`. -/
theorem Harmless.staysShutdown (hq : s.Harmless a) : s.StaysShutdown a := by
  intro hstate t ht
  have hs := step_cases ht
  cases hs with
  | initializes hpre => exact absurd (hstate.symm.trans hpre) (by simp)
  | initializeRejected _ | start => simp [Harmless, hstate] at hq
  | shutdown _ => rfl
  | _ => exact hstate

/-- **A rejected call leaves the executor as it was exactly if it writes the state that is there.**
In a run that is so of every rejected call, `kShutdown` stays and a started executor has a worker in
its loop. -/
theorem rejected_iff :
    (AllSteps GuardThreadExecutor.step LeavesState {} es ∧
      AllSteps GuardThreadExecutor.step StaysShutdown {} es ∧
      AllStates GuardThreadExecutor.step WorksWhileStarted {} es) ↔
    AllSteps GuardThreadExecutor.step Harmless {} es := by
  refine ⟨fun h => h.1.imp fun _ _ => leavesState_iff.mp, fun h => ⟨?_, ?_, ?_⟩⟩
  · exact h.imp fun _ _ => leavesState_iff.mpr
  · exact h.imp fun _ _ => Harmless.staysShutdown
  · have hlively := allStates_of_allSteps (fun s a t h hq hs => Lively.step h hq (step_cases hs))
      lively_new h
    exact hlively.imp fun _ h hstate => h.inLoop (Or.inr hstate)

/-- A `Start` after `Shutdown` throws, and leaves a started executor whose worker has exited. -/
theorem rejected_start_resurrects :
    ∃ s t, run GuardThreadExecutor.step {} [.initializeWith {}, .start, .shutdown, .worker,
        .worker, .shutdownNotify 0, .shutdownJoin 0] = some s ∧ s.state = .shutdown ∧
      s.Rejects .start ∧ GuardThreadExecutor.step s .start = some t ∧ t.state = .start ∧
      ¬ WorksWhileStarted t := by
  have h : ((run GuardThreadExecutor.step {} [.initializeWith {}, .start, .shutdown, .worker,
      .worker, .shutdownNotify 0, .shutdownJoin 0]).map fun s => (s.state, s.worker)) =
        some (.shutdown, .exited) := by
    decide +kernel
  obtain ⟨s, hs, hval⟩ := Option.map_eq_some_iff.mp h
  obtain ⟨hstate, hworker⟩ := Prod.mk.inj hval
  refine ⟨s, _, hs, hstate, ?_, rfl, rfl, fun hworks => ?_⟩
  · simp [Rejects, start, hstate]
  · have hloop := hworks rfl
    simp [start, hworker, Worker.InLoop] at hloop

end GuardThreadExecutor

end Ados.GuardThread
