import Ados.GuardThread.Machine

/-!
# The guard worker sleeps through nothing

The worker tests its predicate and goes to sleep in one critical section, and every push notifies in
another. `Shutdown` writes `state_` outside of them and notifies afterwards, so a worker that sleeps
although the state is `kShutdown` has the notification still before it.

## Main definitions

* `GuardThreadExecutor.SleepsSoundly`: the invariant

## Main results

* `GuardThreadExecutor.Step.sleepsSoundly`: every step keeps it
* `GuardThreadExecutor.queue_eq_nil_of_asleep`: it holds in every state that is reached
-/

namespace Ados.GuardThread

open Transition

namespace GuardThreadExecutor

variable {s s' : GuardThreadExecutor} {a : Act} {es : List Act} {w : Worker}

/-- A worker that is asleep has no task to take, and after a shutdown a notification to come. -/
structure SleepsSoundly (s : GuardThreadExecutor) : Prop where
  queue_eq_nil : s.worker = .asleep → s.queue = []
  notify_mem : s.worker = .asleep → s.state = .shutdown → .notify ∈ s.shutdowns

/-- A worker that is not asleep sleeps through nothing. -/
theorem SleepsSoundly.of_ne (h : s.worker ≠ .asleep) : SleepsSoundly s :=
  ⟨fun hw => absurd hw h, fun hw => absurd hw h⟩

/-- A notified worker is awake. -/
theorem notified_ne_asleep : notified w ≠ .asleep := by
  cases w <;> simp [notified]

/-- A call of `Shutdown` that is not at its notification may go on. -/
theorem notify_mem_set {l : List ShutdownPc} {i : ℕ} {pc : ShutdownPc} (hi : l[i]? = some .join)
    (h : .notify ∈ l) : .notify ∈ l.set i pc := by
  obtain ⟨j, hj⟩ := List.mem_iff_getElem?.mp h
  have hne : i ≠ j := by
    rintro rfl
    rw [hi] at hj
    cases hj
  exact List.mem_iff_getElem?.mpr ⟨j, by rwa [List.getElem?_set_ne hne]⟩

/-- **Every step keeps the invariant.** -/
theorem Step.sleepsSoundly (hs : Step s a s') (h : SleepsSoundly s) : SleepsSoundly s' := by
  cases hs with
  | initializeRejected _ => exact ⟨h.queue_eq_nil, fun _ hstate => by cases hstate⟩
  | start => exact ⟨h.queue_eq_nil, fun _ hstate => by cases hstate⟩
  | shutdown _ =>
    exact ⟨h.queue_eq_nil, fun _ _ => List.mem_append_right _ List.mem_cons_self⟩
  | shutdownJoin hi _ =>
    exact ⟨h.queue_eq_nil, fun hw hstate => notify_mem_set hi (h.notify_mem hw hstate)⟩
  | shutdownAgain _ => exact h
  | call | load _ _ | increment _ _ | refuse _ _ _ | accept _ _ _ | reject _ _ =>
    exact ⟨h.queue_eq_nil, h.notify_mem⟩
  | shutdownNotify _ | push _ _ => exact .of_ne notified_ne_asleep
  | sleeps _ hqueue hstate => exact ⟨fun _ => hqueue, fun _ hdown => absurd hdown hstate⟩
  | initializes _ | leaves _ _ | waits _ _ | takes _ _ | batchEnds _ | begins _ | finishes _
    | exits _ _ | drains _ _ | pops _ | ends _ | drainEnds _ | wakeUp _ =>
    exact .of_ne (by simp)

theorem sleepsSoundly_run (hr : run step ({} : GuardThreadExecutor) es = some s) :
    SleepsSoundly s := by
  apply run_invariant (fun s a t h hs => (step_cases hs).sleepsSoundly h) _ hr
  exact .of_ne (by simp)

/-- **The worker never sleeps through work or shutdown.** Whenever it is asleep and has not been
notified, `queue_` is empty, and if the state is `kShutdown`, a call of `Shutdown` that has passed
its exchange has its notification still before it. -/
theorem queue_eq_nil_of_asleep (hr : run step ({} : GuardThreadExecutor) es = some s)
    (hw : s.worker = .asleep) :
    s.queue = [] ∧ (s.state = .shutdown → .notify ∈ s.shutdowns) :=
  ⟨(sleepsSoundly_run hr).queue_eq_nil hw, (sleepsSoundly_run hr).notify_mem hw⟩

/-- The worker sleeps, and `Shutdown` is between its exchange and its notification. -/
theorem queue_eq_nil_of_asleep_shutdown :
    ∃ s, run step ({} : GuardThreadExecutor) [.initializeWith {}, .start, .worker, .worker,
        .shutdown] = some s ∧
      s.worker = .asleep ∧ s.state = .shutdown ∧ s.queue = [] ∧ .notify ∈ s.shutdowns := by
  have hval : ((run step ({} : GuardThreadExecutor) [.initializeWith {}, .start, .worker, .worker,
      .shutdown]).map fun s => (s.worker, s.state)) = some (.asleep, .shutdown) := by
    decide +kernel
  obtain ⟨s, hs, hval⟩ := Option.map_eq_some_iff.mp hval
  obtain ⟨hw, hstate⟩ := Prod.mk.inj hval
  obtain ⟨hqueue, hnotify⟩ := queue_eq_nil_of_asleep hs hw
  exact ⟨s, hs, hw, hstate, hqueue, hnotify hstate⟩

end GuardThreadExecutor

end Ados.GuardThread
