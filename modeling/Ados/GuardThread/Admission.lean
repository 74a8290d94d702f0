import Ados.GuardThread.Counter
import Mathlib.Algebra.Order.Ring.Nat

/-!
# Admission

The comparison with `queue_threshold` is a step of its own, made with the count that the call's
increment returned. What that count was compared with is what bounds the tasks: the counter is never
smaller than the number of tasks held and of calls in flight, also when tasks have thrown and were
not taken off it, so a call whose increment returned `queue_threshold` at most found room for its
task.

## Main definitions

* `GuardThreadExecutor.Admission`: the tasks held and the calls admitted fit the threshold
* `GuardThreadExecutor.unfinished`: the calls past the check whose tasks have not finished

## Main results

* `GuardThreadExecutor.never_over_admits`: there are never more than `queue_threshold` of them
-/

namespace Ados.GuardThread

open Transition

/-- The call has passed the comparison with the threshold. -/
def ExecuteCall.passed (c : ExecuteCall) : Bool :=
  match c.pc with
  | .push _ => true
  | .pushed _ => true
  | _ => false

/-- The call is about to push. -/
def ExecuteCall.pushing (c : ExecuteCall) : Bool :=
  match c.pc with
  | .push _ => true
  | _ => false

/-- The task whose run has ended, before the end of its iteration. -/
def Worker.ending : Worker → List ℕ
  | .finished task _ _ => [task]
  | .drained task _ => [task]
  | _ => []

namespace GuardThreadExecutor

variable {s s' u : GuardThreadExecutor} {a : Act} {es : List Act} {options : Options}

/-- The counter is not too small, and the tasks held and admitted fit the threshold. -/
structure Admission (s : GuardThreadExecutor) : Prop where
  counted_le : s.counted ≤ s.queueTaskNum
  admitted_le : s.hold + (s.calls.map (ExecuteCall.admitted s.options.queueThreshold)).sum ≤
    s.options.queueThreshold

/-- The increment of a call does not wrap around. -/
def NoWrap (s : GuardThreadExecutor) (a : Act) : Prop :=
  s.Increments a → s.queueTaskNum + 1 < 2 ^ 32

instance (s : GuardThreadExecutor) (a : Act) : Decidable (s.NoWrap a) :=
  inferInstanceAs (Decidable (s.Increments a → s.queueTaskNum + 1 < 2 ^ 32))

theorem admission_initialized : Admission (initialized options) := by
  refine ⟨?_, ?_⟩ <;> simp [initialized, initializeWith, counted, hold, Worker.load]

theorem admitted_le_inFlight (threshold : ℕ) (c : ExecuteCall) :
    c.admitted threshold ≤ c.inFlight := by
  unfold ExecuteCall.admitted ExecuteCall.inFlight
  split
  · split <;> simp_all
  · simp_all
  · exact Nat.zero_le _

theorem sum_admitted_le (threshold : ℕ) (calls : List ExecuteCall) :
    (calls.map (ExecuteCall.admitted threshold)).sum ≤ (calls.map ExecuteCall.inFlight).sum :=
  List.sum_le_sum fun c _ => admitted_le_inFlight threshold c

/-- The counter stays above what it stands for: a task that has thrown makes it too large, which
only makes it reject more. -/
theorem Tally.counted_le (ht : Tally s a s') (hlt : s.queueTaskNum < 2 ^ 32)
    (hle : s.counted ≤ s.queueTaskNum) (hwrap : s.NoWrap a) : s'.counted ≤ s'.queueTaskNum := by
  cases ht with
  | same counted num => rwa [num, counted]
  | up counted num _ adds =>
    have hinc := incremented_eq (hwrap adds)
    omega
  | down counted num =>
    have hdec := decremented_eq hlt (by omega)
    omega
  | lost counted num => omega

/-- A call is admitted when its increment finds the counter below the threshold, and the counter is
not smaller than what is held and admitted. -/
theorem Admission.step (h : Regular options s) (had : Admission s) (hwrap : s.NoWrap a)
    (hs : Step s a s') : Admission s' := by
  have hopt : s'.options = s.options := (hs.options_eq h.init).2.trans h.init.2.symm
  have hle := had.counted_le
  have hadm := had.admitted_le
  have hweight := sum_admitted_le s.options.queueThreshold s.calls
  have heffect := hs.effect h.init.1 h.order
  refine ⟨heffect.tally.counted_le h.num_lt hle hwrap, ?_⟩
  rw [counted] at hle
  cases heffect with
  | quiet hold calls num =>
    rw [hopt, hold, calls]
    exact hadm
  | call hold calls num =>
    rw [hopt, hold, calls]
    simpa [ExecuteCall.admitted] using hadm
  | @increments i c at_ pc hold calls num keeps adds =>
    have hinc := incremented_eq (hwrap adds)
    have hadmit := sum_move (ExecuteCall.admitted s.options.queueThreshold) at_
      (.compare s.incremented)
    simp only [ExecuteCall.admitted, pc] at hadmit
    rw [hopt, hold, calls]
    split at hadmit <;> omega
  | @sorts i c pc at_ flight admitted hold calls num =>
    have hadmit := sum_move (ExecuteCall.admitted s.options.queueThreshold) at_ pc
    rw [hopt, hold, calls]
    omega
  | @rejects i c cur at_ pc hold calls num =>
    have hadmit := sum_move (ExecuteCall.admitted s.options.queueThreshold) at_ (.rejected cur)
    simp only [ExecuteCall.admitted, pc] at hadmit
    rw [hopt, hold, calls]
    omega
  | @pushes i c cur at_ pc hold calls num =>
    have hadmit := sum_move (ExecuteCall.admitted s.options.queueThreshold) at_ (.pushed cur)
    simp only [ExecuteCall.admitted, pc] at hadmit
    rw [hopt, hold, calls]
    omega
  | returned hold calls num | threw hold calls num =>
    rw [hopt, calls]
    omega

theorem run_admission
    (hr : run GuardThreadExecutor.step (initialized options) es = some u)
    (hwrap : AllSteps GuardThreadExecutor.step NoWrap (initialized options) es) :
    Regular options u ∧ Admission u := by
  refine AllStates.last (P := fun s => Regular options s ∧ Admission s) ?_ hr
  refine allStates_of_allSteps ?_ ⟨regular_initialized, admission_initialized⟩ hwrap
  rintro s a t ⟨h, had⟩ hq hs
  exact ⟨h.step (step_cases hs), had.step h hq (step_cases hs)⟩

/-! ## Unfinished tasks -/

/-- The calls that have passed the check and whose tasks have not finished running. -/
def unfinished (s : GuardThreadExecutor) : List ExecuteCall :=
  s.calls.filter fun c => c.passed ∧ c.task ∉ s.ended.map Prod.fst

/-- The tasks pushed that have not ended. -/
def pending (s : GuardThreadExecutor) : List ℕ :=
  s.worker.current ++ s.worker.unbegun ++ s.waiting

theorem InOrder.pushed_eq (h : InOrder s) : s.pushed = s.ended.map Prod.fst ++ s.pending := by
  rw [← h.order, h.ended, pending]
  simp only [List.append_assoc]

/-- The tasks pushed that are not taken off. -/
def unsettled (s : GuardThreadExecutor) : List ℕ := s.worker.ending ++ s.pending

/-- They are the tasks held. -/
theorem InOrder.length_unsettled (h : InOrder s) : s.unsettled.length = s.hold := by
  have hfront := h.front
  unfold unsettled pending waiting hold
  cases hw : s.worker <;>
    simp only [hw, Worker.ending, Worker.current, Worker.unbegun, Worker.drainFront, Worker.load,
      List.length_append, List.length_nil, List.length_cons, Option.isSome_none, Option.isSome_some,
      if_true, Bool.false_eq_true, if_false, Option.some.injEq, forall_eq'] at hfront ⊢ <;>
    try omega
  all_goals
    obtain ⟨rest, hrest⟩ := List.head?_eq_some_iff.mp hfront
    rw [hrest, List.tail_cons, List.length_cons]
    omega

theorem InOrder.length_pending_le (h : InOrder s) : s.pending.length ≤ s.hold := by
  rw [← h.length_unsettled, unsettled, List.length_append]
  omega

theorem countP_eq_sum_map (p : ExecuteCall → Bool) (calls : List ExecuteCall) :
    calls.countP p = (calls.map fun c => if p c then 1 else 0).sum := by
  induction calls with
  | nil => rfl
  | cons c calls ih => rw [List.countP_cons, ih, List.map_cons, List.sum_cons, Nat.add_comm]

theorem countP_pushing_le (threshold : ℕ) (calls : List ExecuteCall) :
    calls.countP ExecuteCall.pushing ≤ (calls.map (ExecuteCall.admitted threshold)).sum := by
  rw [countP_eq_sum_map]
  refine List.sum_le_sum fun c _ => ?_
  cases hpc : c.pc <;> simp [ExecuteCall.pushing, ExecuteCall.admitted, hpc]

theorem Numbered.nodup_task (h : Numbered s) : (s.calls.map ExecuteCall.task).Nodup := by
  rw [List.nodup_iff_getElem?_ne_getElem?]
  intro i j hij hj heq
  rw [List.length_map] at hj
  have hi := h.task i _ (List.getElem?_eq_getElem (by omega))
  have hj' := h.task j _ (List.getElem?_eq_getElem hj)
  simp only [List.getElem?_map, List.getElem?_eq_getElem hj,
    List.getElem?_eq_getElem (show i < s.calls.length by omega), Option.map_some,
    Option.some.injEq] at heq
  omega

/-- A call past the check is about to push, or its task is pending unless it has ended. -/
theorem length_unfinished_le (ho : InOrder s) (hn : Numbered s) :
    s.unfinished.length ≤ s.calls.countP ExecuteCall.pushing + s.pending.length := by
  rw [List.length_eq_countP_add_countP ExecuteCall.pushing]
  refine Nat.add_le_add ?_ ?_
  · exact List.Sublist.countP_le List.filter_sublist
  · rw [List.countP_eq_length_filter, ← List.length_map ExecuteCall.task]
    have hsub : (s.unfinished.filter fun c => ¬ c.pushing = true).Sublist s.calls :=
      List.filter_sublist.trans List.filter_sublist
    refine (List.subperm_of_subset (hn.nodup_task.sublist (hsub.map _)) ?_).length_le
    intro i hi
    obtain ⟨c, hc, rfl⟩ := List.mem_map.mp hi
    obtain ⟨hc, hpushing⟩ := List.mem_filter.mp hc
    obtain ⟨hc, hpassed⟩ := List.mem_filter.mp hc
    simp only [decide_eq_true_eq] at hpushing hpassed
    obtain ⟨hpassed, hended⟩ := hpassed
    obtain ⟨cur, hcur⟩ : ∃ cur, c.pc = .pushed cur := by
      cases hpc : c.pc <;> simp_all [ExecuteCall.passed, ExecuteCall.pushing]
    obtain ⟨j, hj⟩ := List.mem_iff_getElem?.mp hc
    have hpushed := hn.done j c cur hj hcur
    rw [ho.pushed_eq, ← hn.task j c hj] at hpushed
    exact (List.mem_append.mp hpushed).resolve_left hended

/-- **The executor never over-admits.** As long as the counter does not wrap around, at most
`queue_threshold` calls have passed the check with a task that has not finished running, and
`queue_` and the batch hold no more tasks than that. -/
theorem never_over_admits
    (hr : run GuardThreadExecutor.step (initialized options) es = some u)
    (hwrap : AllSteps GuardThreadExecutor.step NoWrap (initialized options) es) :
    u.unfinished.length ≤ options.queueThreshold ∧ u.hold ≤ options.queueThreshold := by
  obtain ⟨h, had⟩ := run_admission hr hwrap
  have hopt : u.options.queueThreshold = options.queueThreshold := by rw [h.init.2]
  have hadm := had.admitted_le
  have hpush := countP_pushing_le u.options.queueThreshold u.calls
  have hpending := h.order.length_pending_le
  -- the calls about to push are admitted, and the pending tasks are held
  have hlen := length_unfinished_le h.order (run_numbered hr)
  omega

/-- With a threshold of `1`, the second of two calls is rejected while the first task waits. -/
theorem never_over_admits_one :
    ∃ u, run GuardThreadExecutor.step (initialized { queueThreshold := 1 })
      [.start, .call, .call, .execute 0, .execute 0, .execute 1, .execute 1, .execute 1, .execute 0,
        .execute 0, .execute 1] = some u ∧ u.unfinished.length ≤ 1 ∧ u.hold ≤ 1 := by
  obtain ⟨u, hu⟩ := Option.isSome_iff_exists.mp
    (show (run GuardThreadExecutor.step (initialized { queueThreshold := 1 })
      [.start, .call, .call, .execute 0, .execute 0, .execute 1, .execute 1, .execute 1, .execute 0,
        .execute 0, .execute 1]).isSome by decide +kernel)
  exact ⟨u, hu, never_over_admits hu (by decide +kernel)⟩

end GuardThreadExecutor

end Ados.GuardThread
