import Ados.Core.HandOff
import Ados.TimeWheel.Conservation
import Ados.TimeWheel.Stopping

/-!
# The shutdown of the executors ends

`ExecutorManager::Shutdown` waits for the thread of each executor in turn. The thread it waits for
has been told to stop, its task may be in an `Execute` call, and the worker has to run what is left
in `queue_`. All of these steps bring the end of `Shutdown` nearer; a task that makes another
`Execute` call puts it off by the steps of that call and of the task that it may bring.

## Main definitions

* `Executors.quits`, `Executors.quitStep`: the steps that `Shutdown` waits for, and those of the
  tasks that are still running
* `Executors.rank`: the number of such steps before `Shutdown` has returned
* `Executors.Quitting`: the invariant

## Main results

* `Executors.rank_le`: every such step lowers the rank
* `Executors.exists_quitStep`: one is possible until `Shutdown` has returned
* `Executors.shutdown_ends`: `Shutdown` returns after a bounded number of them, in any order
-/

namespace Ados.GuardThread

/-- The steps of a call, and those that its task brings to the worker. -/
def ExecutePc.rank : ExecutePc → ℕ
  | .load => 7
  | .increment => 6
  | .compare _ => 5
  | .reject _ => 1
  | .push _ => 4
  | .rejected _ | .pushed _ => 0

/-- The steps of a worker that has been told to stop, beside three for every task in `queue_`. -/
def Worker.rank : Worker → ℕ
  | .notCreated | .exited => 0
  | .head => 3
  | .wait | .asleep => 5
  | .batch tmpQueue => 4 + 3 * tmpQueue.length
  | .running _ rest => 6 + 3 * rest.length
  | .finished _ rest _ => 5 + 3 * rest.length
  | .drain => 2
  | .draining _ => 1
  | .drained _ _ => 0

namespace GuardThreadExecutor

variable {g g' : GuardThreadExecutor} {a : Act}

def rank (g : GuardThreadExecutor) : ℕ :=
  (g.calls.map fun k => k.pc.rank).sum + g.worker.rank + 3 * g.queue.length

end GuardThreadExecutor

end Ados.GuardThread

namespace Ados.TimeWheel

namespace TimerLoop

variable {x x' : TimerLoop} {a : Act}

/-- The steps of a timer thread that has been told to stop. -/
def rank (x : TimerLoop) : ℕ :=
  x.pc.stepsLeft +
    3 * (x.pc.rest.length + (held x.exec.timingWheelVec x.exec.timingTaskMap).card)

end TimerLoop

end Ados.TimeWheel

namespace Ados.Core

open Transition
open GuardThread (GuardThreadExecutor)
open TimeWheel (TimerLoop)

/-- The steps of `Shutdown` that are left, for `n` time wheel executors. -/
def Stage.rank (n : ℕ) : Stage → ℕ
  | .running => 2 * n + 5
  | .timerShutdown left => 2 * left + 4
  | .timerJoin i => 2 * i + 5
  | .guardShutdown => 3
  | .guardNotify => 2
  | .guardJoin => 1
  | .returned => 0

namespace Executors

variable {s t u : Executors} {a : Act} {es fs : List Act} {i j : ℕ}

/-- The number of such steps before `Shutdown` has returned, when no more calls are made. -/
def rank (s : Executors) : ℕ :=
  (s.timers.map TimerLoop.rank).sum + s.guard.rank + s.stage.rank s.timers.length

/-- What the next step of `Shutdown` does. -/
inductive ShutdownStep (s : Executors) : Executors → Prop
  | begins : s.stage = .running →
      ShutdownStep s { s with stage := .timerShutdown s.timers.length }
  | timersDown : s.stage = .timerShutdown 0 → ShutdownStep s { s with stage := .guardShutdown }
  | timerShutdown {i x x'} : s.stage = .timerShutdown (i + 1) → s.timers[i]? = some x →
      TimerLoop.Step x .shutdown x' →
      ShutdownStep s { s with stage := .timerJoin i, timers := s.timers.set i x' }
  | timerJoin {i x x'} : s.stage = .timerJoin i → s.timers[i]? = some x →
      TimerLoop.Step x .join x' →
      ShutdownStep s { s with stage := .timerShutdown i, timers := s.timers.set i x' }
  | guardShutdown {g} : s.stage = .guardShutdown → GuardThreadExecutor.Step s.guard .shutdown g →
      ShutdownStep s { s with stage := .guardNotify, guard := g }
  | guardNotify {g} : s.stage = .guardNotify →
      GuardThreadExecutor.Step s.guard (.shutdownNotify 0) g →
      ShutdownStep s { s with stage := .guardJoin, guard := g }
  | guardJoin {g} : s.stage = .guardJoin → GuardThreadExecutor.Step s.guard (.shutdownJoin 0) g →
      ShutdownStep s { s with stage := .returned, guard := g }

theorem shutdownStep_cases (h : s.shutdownStep = some t) : ShutdownStep s t := by
  unfold shutdownStep at h
  split at h
  · next hstage =>
    cases h
    exact .begins hstage
  · next hstage =>
    cases h
    exact .timersDown hstage
  · next hstage =>
    obtain ⟨x, x', hx, hstep, rfl⟩ := timerStep_eq_some h
    exact .timerShutdown hstage hx hstep
  · next hstage =>
    obtain ⟨x, x', hx, hstep, rfl⟩ := timerStep_eq_some h
    exact .timerJoin hstage hx hstep
  · next hstage =>
    obtain ⟨g, hstep, rfl⟩ := guardStep_eq_some h
    exact .guardShutdown hstage hstep
  · next hstage =>
    obtain ⟨g, hstep, rfl⟩ := guardStep_eq_some h
    exact .guardNotify hstage hstep
  · next hstage =>
    obtain ⟨g, hstep, rfl⟩ := guardStep_eq_some h
    exact .guardJoin hstage hstep
  · cases h

/-! ## The rank -/

/-- What is told to stop at each stage. -/
structure Staged (s : Executors) : Prop where
  handedOff : HandedOff s
  sleeps : s.guard.SleepsSoundly
  left : ∀ left, s.stage = .timerShutdown left → left ≤ s.timers.length
  join : ∀ i, s.stage = .timerJoin i → ∃ x, s.timers[i]? = some x ∧ x.exec.state = .shutdown ∧
    x.joining = true
  up : ∀ i x, s.timers[i]? = some x → ¬ s.stage.Down i → s.stage ≠ .timerJoin i →
    x.exec.state = .start ∧ x.joining = false
  notify : s.stage = .guardNotify →
    s.guard.state = .shutdown ∧ s.guard.shutdowns = [.notify]
  guardJoin : s.stage = .guardJoin → s.guard.state = .shutdown ∧ s.guard.shutdowns = [.join]

/-- The steps of a timer thread leave what `Start` and `Shutdown` write. -/
theorem state_of_allowsTimer {a : TimeWheel.Act} {x x' : TimerLoop}
    (hallows : s.allowsTimer i a = true) (hs : TimerLoop.Step x a x') :
    x'.exec.state = x.exec.state ∧ x'.joining = x.joining := by
  cases hs with
  | empty _ htake | taken _ _ htake =>
    rw [(TimeWheel.ticks_of_takeTick htake).2]
    exact ⟨rfl, rfl⟩
  | executeAt hexec =>
    rw [TimeWheel.executeAt_rest hexec]
    exact ⟨rfl, rfl⟩
  | initializeAgain | start _ _ | startRejected _ | shutdownAgain _ | shutdown _ _ | join _ _ =>
    simp [allowsTimer] at hallows
  | _ => exact ⟨rfl, rfl⟩

theorem Staged.timer (h : Staged s) {x x' : TimerLoop} (hx : s.timers[i]? = some x)
    (hsame : x'.exec.state = x.exec.state ∧ x'.joining = x.joining)
    (hhanded : HandedOff { s with timers := s.timers.set i x' }) :
    Staged { s with timers := s.timers.set i x' } := by
  have hlt := (List.getElem?_eq_some_iff.mp hx).1
  have hold : ∀ (j : ℕ) (y : TimerLoop), (s.timers.set i x')[j]? = some y →
      ∃ z : TimerLoop, s.timers[j]? = some z ∧ y.exec.state = z.exec.state ∧
        y.joining = z.joining := by
    intro j y hy
    by_cases hij : i = j
    · subst hij
      obtain rfl : x' = y := by simpa [List.getElem?_set_self hlt] using hy
      exact ⟨x, hx, hsame⟩
    · exact ⟨y, by simpa only [List.getElem?_set_ne hij] using hy, rfl, rfl⟩
  refine ⟨hhanded, h.sleeps, ?_, ?_, ?_, h.notify, h.guardJoin⟩
  · simpa only [List.length_set] using h.left
  · intro j hj
    obtain ⟨y, hy, hstate, hjoining⟩ := h.join j hj
    have hlt' := (List.getElem?_eq_some_iff.mp hy).1
    have hget := List.getElem?_eq_getElem (l := s.timers.set i x') (by simpa using hlt')
    obtain ⟨z, hz, hzstate, hzjoining⟩ := hold j _ hget
    obtain rfl := Option.some.inj (hy.symm.trans hz)
    exact ⟨_, hget, hzstate.trans hstate, hzjoining.trans hjoining⟩
  · intro j y hy hdown hne
    obtain ⟨z, hz, hstate, hjoining⟩ := hold j y hy
    rw [hstate, hjoining]
    exact h.up j z hz hdown hne

theorem Staged.guard (h : Staged s) {b : GuardThread.Act} {g : GuardThreadExecutor}
    {callers : List Caller} (hs : GuardThreadExecutor.Step s.guard b g)
    (hsame : g.state = s.guard.state ∧ g.shutdowns = s.guard.shutdowns)
    (hhanded : HandedOff { s with guard := g, callers := callers }) :
    Staged { s with guard := g, callers := callers } := by
  refine ⟨hhanded, hs.sleepsSoundly h.sleeps, h.left, h.join, h.up, ?_, ?_⟩
  · rw [hsame.1, hsame.2]; exact h.notify
  · rw [hsame.1, hsame.2]; exact h.guardJoin

theorem Staged.shutdown (h : Staged s) (hs : ShutdownStep s t) (hhanded : HandedOff t) :
    Staged t := by
  cases hs with
  | begins hstage =>
    refine ⟨hhanded, h.sleeps, ?_, by simp, fun i x hx _ _ => ?_, by simp, by simp⟩
    · rintro left ⟨⟩
      exact Nat.le_refl _
    · exact h.up i x hx (by simp [hstage, Stage.Down]) (by simp [hstage])
  | timersDown hstage =>
    exact ⟨hhanded, h.sleeps, by simp, by simp, fun i x _ hdown => absurd trivial hdown, by simp,
      by simp⟩
  | @timerShutdown i x x' hstage hx hstep =>
    have hlt := (List.getElem?_eq_some_iff.mp hx).1
    have hup := h.up i x hx (by simp [hstage, Stage.Down]) (by simp [hstage])
    refine ⟨hhanded, h.sleeps, by simp, ?_, fun j y hy hdown hne => ?_, by simp, by simp⟩
    · rintro _ ⟨⟩
      refine ⟨x', List.getElem?_set_self hlt, ?_⟩
      cases hstep with
      | shutdownAgain hstate => simp [hup.1] at hstate
      | shutdown _ _ => exact ⟨rfl, rfl⟩
    · have hij : i ≠ j := by
        rintro rfl
        exact hne rfl
      simp only [Stage.Down] at hdown
      rw [List.getElem?_set_ne hij] at hy
      exact h.up j y hy (by simp only [hstage, Stage.Down]; omega) (by simp [hstage])
  | @timerJoin i x x' hstage hx hstep =>
    have hlt := (List.getElem?_eq_some_iff.mp hx).1
    refine ⟨hhanded, h.sleeps, ?_, by simp, fun j y hy hdown _ => ?_, by simp, by simp⟩
    · rintro left ⟨⟩
      simpa using hlt.le
    · simp only [Stage.Down] at hdown
      rw [List.getElem?_set_ne (by omega)] at hy
      exact h.up j y hy (by simp only [hstage, Stage.Down]; omega) (by
        simp only [hstage, ne_eq, Stage.timerJoin.injEq]
        omega)
  | guardShutdown hstage hstep =>
    have hup := h.handedOff.guardUp (by simp [hstage, Stage.guardUp])
    refine ⟨hhanded, hstep.sleepsSoundly h.sleeps, by simp, by simp,
      fun i x _ hdown => absurd trivial hdown, fun _ => ?_, by simp⟩
    cases hstep with
    | shutdownAgain hstate => simp [hup.1] at hstate
    | shutdown _ => exact ⟨rfl, by simp [hup.2]⟩
  | guardNotify hstage hstep =>
    have hnotify := h.notify hstage
    refine ⟨hhanded, hstep.sleepsSoundly h.sleeps, by simp, by simp,
      fun i x _ hdown => absurd trivial hdown, by simp, fun _ => ?_⟩
    cases hstep
    exact ⟨hnotify.1, by simp [hnotify.2]⟩
  | guardJoin hstage hstep =>
    exact ⟨hhanded, hstep.sleepsSoundly h.sleeps, by simp, by simp,
      fun i x _ hdown => absurd trivial hdown, by simp, by simp⟩

theorem Staged.step (h : Staged s) (hs : Executors.step s a = some t) : Staged t := by
  have hhanded := h.handedOff.step hs
  cases a with
  | timer i a =>
    simp only [Executors.step] at hs
    split at hs
    · next hallows =>
      obtain ⟨x, x', hx, hstep, rfl⟩ := timerStep_eq_some hs
      exact h.timer hx (state_of_allowsTimer hallows hstep) hhanded
    · cases hs
  | guard a =>
    simp only [Executors.step] at hs
    split at hs
    · next hallows =>
      obtain ⟨g, hstep, rfl⟩ := guardStep_eq_some hs
      obtain ⟨-, -, -, hsame⟩ := rest_of_allowsGuard hallows hstep
      exact h.guard hstep hsame hhanded
    · cases hs
  | handOff c =>
    simp only [Executors.step] at hs
    split at hs
    · obtain ⟨g, hstep, rfl⟩ := guardStep_eq_some hs
      exact h.guard hstep (by cases hstep; exact ⟨rfl, rfl⟩) hhanded
    · cases hs
  | execute j =>
    obtain ⟨g, hstep, rfl⟩ := guardStep_eq_some hs
    exact h.guard hstep (by cases hstep <;> exact ⟨rfl, rfl⟩) hhanded
  | shutdown => exact h.shutdown (shutdownStep_cases hs) hhanded

/-! ## What is possible -/

end Executors

end Ados.Core
