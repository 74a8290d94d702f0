import Ados.Common.BlockQueue
import Mathlib.Algebra.Order.Ring.Nat

/-!
# No wake-up of the blocking queue is lost

An item is announced to one call of `Dequeue` only, and the call may find it taken by another that
never slept. Nevertheless a call sleeps on a running queue only while every item has a notified call
that has not yet looked for it, and no call sleeps on a queue that has been stopped.

## Main definitions

* `BlockQueueThreads.sleepers`, `BlockQueueThreads.woken`: the numbers of calls that sleep without
  having been notified, and of calls that have been notified and have not yet passed
* `BlockQueueThreads.NoLostWakeUp`: the invariant

## Main results

* `BlockQueueThreads.Step.noLostWakeUp`: every step keeps it
* `BlockQueueThreads.size_le_woken`: it holds in every state that is reached
-/

namespace Ados

open Transition

/-- The call has been notified, and has not yet entered the critical section again. -/
def DequeueCall.isNotified {T : Type} : DequeueCall T → Bool
  | .notified => true
  | _ => false

namespace BlockQueueThreads

variable {T : Type} {s s' : BlockQueueThreads T} {a : Act T} {es : List (Act T)}
  {calls calls' : List (DequeueCall T)} {i : ℕ} {c c' : DequeueCall T}

/-- The number of calls that sleep and have not been notified. -/
def sleepers (calls : List (DequeueCall T)) : ℕ := calls.countP DequeueCall.isAsleep

/-- The number of calls that have been notified and have not yet passed. -/
def woken (calls : List (DequeueCall T)) : ℕ := calls.countP DequeueCall.isNotified

/-- Every item has a notified call while a call sleeps on a running queue, and no call sleeps on a
stopped one. -/
structure NoLostWakeUp (s : BlockQueueThreads T) : Prop where
  size_le : s.q.runningFlag = true → 0 < sleepers s.calls → s.q.queue.length ≤ woken s.calls
  stopped : s.q.runningFlag = false → sleepers s.calls = 0

/-! ## The counts -/

theorem sleepers_eq_zero_iff : sleepers calls = 0 ↔ calls.any DequeueCall.isAsleep = false := by
  rw [sleepers, List.countP_eq_zero, List.any_eq_false]

theorem sleepers_pos_of_mem (h : .asleep ∈ calls) : 0 < sleepers calls :=
  List.countP_pos_iff.mpr ⟨.asleep, h, rfl⟩

/-- A call that moves takes its old place out of a count and brings its new one in. -/
theorem countP_set_add (p : DequeueCall T → Bool) (hi : calls[i]? = some c) :
    (calls.set i c').countP p + (p c).toNat = calls.countP p + (p c').toNat := by
  obtain ⟨hlt, rfl⟩ := List.getElem?_eq_some_iff.mp hi
  rw [List.countP_set hlt]
  cases hp : p calls[i] with
  | false => cases p c' <;> simp
  | true =>
    have hpos : 0 < calls.countP p := List.countP_pos_iff.mpr ⟨_, List.getElem_mem hlt, hp⟩
    cases p c' <;> simp <;> omega

/-- A call that passes was not asleep, and was counted as notified at most once. -/
theorem set_of_passes (c' : DequeueCall T)
    (hi : calls[i]? = some .entering ∨ calls[i]? = some .notified) :
    sleepers (calls.set i c') = sleepers calls + c'.isAsleep.toNat ∧
      woken calls ≤ woken (calls.set i c') + 1 := by
  rcases hi with hi | hi
  · have hsleep : sleepers (calls.set i c') + 0 = sleepers calls + c'.isAsleep.toNat :=
      countP_set_add _ hi
    have hwoken : woken (calls.set i c') + 0 = woken calls + c'.isNotified.toNat :=
      countP_set_add _ hi
    constructor
    · omega
    · omega
  · have hsleep : sleepers (calls.set i c') + 0 = sleepers calls + c'.isAsleep.toNat :=
      countP_set_add _ hi
    have hwoken : woken (calls.set i c') + 1 = woken calls + c'.isNotified.toNat :=
      countP_set_add _ hi
    constructor
    · omega
    · omega

/-- `notify_one` turns a sleeping call into a notified one, unless none sleeps. -/
theorem counts_of_notifyOne {j : Option ℕ} (h : notifyOne calls j = some calls') :
    sleepers calls = 0 ∧ calls' = calls ∨
      sleepers calls = sleepers calls' + 1 ∧ woken calls' = woken calls + 1 := by
  cases j with
  | none =>
    left
    simp only [notifyOne] at h
    split at h
    · cases h
    · next hany =>
      cases h
      exact ⟨sleepers_eq_zero_iff.mpr (Bool.eq_false_iff.mpr hany), rfl⟩
  | some i =>
    right
    simp only [notifyOne] at h
    split at h
    · next hany =>
      cases h
      obtain ⟨c, hi, hc⟩ := (Option.any_eq_true _ _).mp hany
      cases c with
      | asleep =>
        have hsleep : sleepers (calls.set i .notified) + 1 = sleepers calls + 0 :=
          countP_set_add _ hi
        have hwoken : woken (calls.set i .notified) + 0 = woken calls + 1 := countP_set_add _ hi
        constructor
        · omega
        · omega
      | _ => cases hc
    · cases h

/-- `notify_all` leaves no call asleep. -/
theorem sleepers_map_wake : sleepers (calls.map DequeueCall.wake) = 0 := by
  rw [sleepers, List.countP_eq_zero]
  intro c hc
  obtain ⟨c, -, rfl⟩ := List.mem_map.mp hc
  cases c <;> exact Bool.false_ne_true

theorem sleepers_append_entering : sleepers (calls ++ [.entering]) = sleepers calls :=
  List.countP_append

theorem woken_append_entering : woken (calls ++ [.entering]) = woken calls := List.countP_append

/-! ## The invariant -/

theorem noLostWakeUp_of_running (hrun : s.q.runningFlag = true)
    (h : 0 < sleepers s.calls → s.q.queue.length ≤ woken s.calls) : NoLostWakeUp s where
  size_le _ := h
  stopped hstop := absurd (hrun.symm.trans hstop) (by simp)

theorem noLostWakeUp_of_stopped (hstop : s.q.runningFlag = false)
    (h : sleepers s.calls = 0) : NoLostWakeUp s where
  size_le hrun := absurd (hrun.symm.trans hstop) (by simp)
  stopped _ := h

/-- **Every step keeps the invariant.** -/
theorem Step.noLostWakeUp (hs : Step s a s') (h : NoLostWakeUp s) : NoLostWakeUp s' := by
  cases hs with
  | @enqueue item woken calls hrun hcalls =>
    refine noLostWakeUp_of_running hrun fun hpos => ?_
    have hle := h.size_le hrun
    rw [List.length_append, List.length_singleton]
    rcases counts_of_notifyOne hcalls with ⟨hzero, rfl⟩ | ⟨hsleep, hwoken⟩
    · exact absurd hzero hpos.ne'
    · rw [hwoken]
      exact Nat.succ_le_succ (hle (by omega))
  | call =>
    constructor
    · intro hrun hpos
      rw [sleepers_append_entering] at hpos
      rw [woken_append_entering]
      exact h.size_le hrun hpos
    · intro hstop
      rw [sleepers_append_entering]
      exact h.stopped hstop
  | waits hi hrun hqueue =>
    refine noLostWakeUp_of_running hrun fun _ => ?_
    rw [hqueue]
    exact Nat.zero_le _
  | @returns i item queue hi hrun hqueue =>
    obtain ⟨hsleep, hwoken⟩ := set_of_passes (.returned item) hi
    refine noLostWakeUp_of_running hrun fun hpos => ?_
    rw [hsleep] at hpos
    have hle := h.size_le hrun hpos
    rw [hqueue, List.length_cons] at hle
    exact Nat.le_of_succ_le_succ (hle.trans hwoken)
  | @throws i hi hstop =>
    obtain ⟨hsleep, -⟩ := set_of_passes (.threw blockQueueStopped) hi
    refine noLostWakeUp_of_stopped hstop ?_
    rw [hsleep]
    exact h.stopped hstop
  | @wakeUp i hi =>
    have hsleep : sleepers (s.calls.set i .entering) + 1 = sleepers s.calls + 0 :=
      countP_set_add _ hi
    have hwoken : woken (s.calls.set i .entering) + 0 = woken s.calls + 0 := countP_set_add _ hi
    constructor
    · intro hrun _
      have := h.size_le hrun (by omega)
      simp only
      omega
    · intro hstop
      have := h.stopped hstop
      simp only
      omega
  | @tryReturns item queue hrun hqueue =>
    refine noLostWakeUp_of_running hrun fun hpos => ?_
    have hle := h.size_le hrun hpos
    rw [hqueue, List.length_cons] at hle
    exact Nat.le_of_succ_le hle
  | stop => exact noLostWakeUp_of_stopped rfl sleepers_map_wake
  | enqueueThrows _ | tryFails _ => exact h

theorem noLostWakeUp_run (hr : run step ({} : BlockQueueThreads T) es = some s) :
    NoLostWakeUp s := by
  apply run_invariant (fun s a t h hs => (step_cases hs).noLostWakeUp h) _ hr
  exact ⟨fun _ _ => Nat.zero_le _, fun _ => rfl⟩

/-- **No wake-up is lost.** In every state that is reached, while some call sleeps without having
been notified there are at least as many notified calls as items if the queue runs, and no call
sleeps if it has been stopped. -/
theorem size_le_woken (hr : run step ({} : BlockQueueThreads T) es = some s) :
    (s.q.runningFlag = true → .asleep ∈ s.calls → s.q.size ≤ woken s.calls) ∧
      (s.q.runningFlag = false → .asleep ∉ s.calls) := by
  have h := noLostWakeUp_run hr
  constructor
  · intro hrun hmem
    exact h.size_le hrun (sleepers_pos_of_mem hmem)
  · intro hstop hmem
    exact absurd (h.stopped hstop) (sleepers_pos_of_mem hmem).ne'

/-- A consumer sleeps, another has been notified and finds its item gone to a third. -/
theorem size_le_woken_stolen :
    ∃ s, run step ({} : BlockQueueThreads ℕ) [.call, .dequeue 0, .call, .dequeue 1,
        .enqueue 7 (some 0), .call, .dequeue 2] = some s ∧
      .asleep ∈ s.calls ∧ s.q.size ≤ woken s.calls := by
  have hval : ((run step ({} : BlockQueueThreads ℕ) [.call, .dequeue 0, .call, .dequeue 1,
      .enqueue 7 (some 0), .call, .dequeue 2]).map fun s => (s.calls, s.q)) =
        some ([.notified, .asleep, .returned 7], {}) := by
    decide +kernel
  obtain ⟨s, hs, hval⟩ := Option.map_eq_some_iff.mp hval
  obtain ⟨hcalls, hq⟩ := Prod.mk.inj hval
  have hmem : .asleep ∈ s.calls := by
    rw [hcalls]
    decide
  refine ⟨s, hs, hmem, (size_le_woken hs).1 ?_ hmem⟩
  rw [hq]

end BlockQueueThreads

end Ados
