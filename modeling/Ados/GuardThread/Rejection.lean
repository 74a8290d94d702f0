import Ados.GuardThread.Admission

/-!
# Rejection

A call that is going to be rejected has incremented `queue_task_num_` and decrements it in a later
step. In between the counter is larger than the number of the calls admitted, and another call that
increments it then can be rejected although there is room. If no call does so, a call is rejected
only if `queue_threshold` others are admitted.

## Main definitions

* `GuardThreadExecutor.takenOff`: the tasks that the worker has run and taken off the counter
* `GuardThreadExecutor.admittedCalls`, `GuardThreadExecutor.refusedCalls`: the calls admitted whose
  tasks are not taken off, and the calls refused that have not decremented
* `GuardThreadExecutor.Refuses`: the increment of a call that will be rejected
* `GuardThreadExecutor.AfterRefused`: no call increments while a refused one has not decremented

## Main results

* `GuardThreadExecutor.exists_refuses`: a call that is rejected has made such an increment
* `GuardThreadExecutor.rejects_only_when_full`: it finds `queue_threshold` calls admitted as long as
  no call increments between the increment and the decrement of a refused one
-/

namespace Ados.GuardThread

open Transition

namespace ExecuteCall

/-- The count that the increment of the call has returned. -/
def count (c : ExecuteCall) : Option ℕ :=
  match c.pc with
  | .compare cur | .reject cur | .push cur | .rejected cur | .pushed cur => some cur
  | _ => none

/-- The call will be rejected, or is before its decrement. -/
def refused (threshold : ℕ) (c : ExecuteCall) : Bool :=
  match c.pc with
  | .compare cur => threshold < cur
  | .reject _ => true
  | _ => false

/-- The call has pushed its task. -/
def hasPushed (c : ExecuteCall) : Bool :=
  match c.pc with
  | .pushed _ => true
  | _ => false

/-- The comparison with the threshold went by the count. -/
def Sorted (threshold : ℕ) (c : ExecuteCall) : Prop :=
  match c.pc with
  | .reject cur | .rejected cur => threshold < cur
  | .push cur | .pushed cur => cur ≤ threshold
  | _ => True

end ExecuteCall

namespace GuardThreadExecutor

variable {s s' u : GuardThreadExecutor} {a : Act} {es : List Act} {options : Options}

/-- The tasks that the worker has run and taken off. -/
def takenOff (s : GuardThreadExecutor) : List ℕ :=
  (s.ended.map Prod.fst).filter fun task => task ∉ s.worker.ending

/-- The calls whose increment returned the threshold at most and whose tasks are not taken off. -/
def admittedCalls (s : GuardThreadExecutor) : List ExecuteCall :=
  s.calls.filter fun c => c.count.any (· ≤ s.options.queueThreshold) ∧ c.task ∉ s.takenOff

/-- The calls whose increment returned more than the threshold and is not taken back. -/
def refusedCalls (s : GuardThreadExecutor) : List ExecuteCall :=
  s.calls.filter (ExecuteCall.refused s.options.queueThreshold)

/-- The step is an increment, and the comparison with its count will reject the call. -/
def Refuses (s : GuardThreadExecutor) (a : Act) : Prop :=
  s.Increments a ∧
    verdict s.options.queueThreshold s.queueWarnThreshold s.incremented = .reject

/-- A call that will be rejected finds `queue_threshold` calls admitted. -/
def RejectsFull (s : GuardThreadExecutor) (a : Act) : Prop :=
  s.Refuses a → s.options.queueThreshold ≤ s.admittedCalls.length

/-- No call increments between the increment and the decrement of a refused one. -/
def AfterRefused (s : GuardThreadExecutor) (a : Act) : Prop :=
  s.Increments a → s.refusedCalls = []

instance (s : GuardThreadExecutor) (a : Act) : Decidable (s.Refuses a) :=
  inferInstanceAs (Decidable (_ ∧ _))

instance (s : GuardThreadExecutor) (a : Act) : Decidable (s.AfterRefused a) :=
  inferInstanceAs (Decidable (_ → _))

theorem verdict_eq_reject {queueThreshold queueWarnThreshold cur : ℕ} :
    verdict queueThreshold queueWarnThreshold cur = .reject ↔ queueThreshold < cur := by
  unfold verdict
  split
  · next hlt => simpa using hlt
  · next hle => split <;> simpa using hle

/-! ## The tasks not taken off -/

@[simp] theorem notified_ending (w : Worker) : (notified w).ending = w.ending := by
  cases w <;> rfl

/-- The task whose iteration ends has ended. -/
structure EndingEnded (s : GuardThreadExecutor) : Prop where
  mem : ∀ task ∈ s.worker.ending, task ∈ s.ended.map Prod.fst

theorem EndingEnded.step (h : EndingEnded s) (hs : Step s a s') : EndingEnded s' := by
  cases hs with
  | shutdownNotify _ | push _ _ => exact ⟨fun task htask => h.mem task (by simpa using htask)⟩
  | ends _ | drainEnds _ =>
    refine ⟨fun task htask => ?_⟩
    simp only [Worker.ending, List.mem_singleton] at htask
    simp [htask]
  | initializes _ | leaves _ _ | waits _ _ | takes _ _ | sleeps _ _ _ | batchEnds _ | begins _
  | finishes _ | exits _ _ | drains _ _ | pops _ | wakeUp _ => exact ⟨by simp [Worker.ending]⟩
  | _ => exact ⟨h.mem⟩

theorem nodup_ending (w : Worker) : w.ending.Nodup := by
  cases w <;> simp [Worker.ending]

/-- What has been pushed has been taken off or is unsettled, and not both. -/
theorem InOrder.mem_unsettled (ho : InOrder s) (hn : Numbered s) (he : EndingEnded s) {task : ℕ} :
    task ∈ s.unsettled ↔ task ∈ s.pushed ∧ task ∉ s.takenOff := by
  have hnodup := hn.nodup
  rw [ho.pushed_eq] at hnodup ⊢
  have hdisjoint := (List.nodup_append.mp hnodup).2.2
  simp only [unsettled, takenOff, List.mem_append, List.mem_filter, decide_eq_true_eq]
  constructor
  · rintro (hending | hpending)
    · exact ⟨Or.inl (he.mem task hending), fun h => h.2 hending⟩
    · exact ⟨Or.inr hpending, fun h => hdisjoint task h.1 task hpending rfl⟩
  · rintro ⟨hended | hpending, hoff⟩
    · exact Or.inl (by_contra fun h => hoff ⟨hended, h⟩)
    · exact Or.inr hpending

theorem InOrder.nodup_unsettled (ho : InOrder s) (hn : Numbered s) (he : EndingEnded s) :
    s.unsettled.Nodup := by
  have hnodup := hn.nodup
  rw [ho.pushed_eq] at hnodup
  obtain ⟨-, hpending, hdisjoint⟩ := List.nodup_append.mp hnodup
  refine List.nodup_append.mpr ⟨nodup_ending _, hpending, fun task htask => ?_⟩
  exact hdisjoint task (he.mem task htask)

/-- The calls that have pushed and whose tasks are not taken off are as many as the tasks held. -/
theorem countP_hasPushed (ho : InOrder s) (hn : Numbered s) (he : EndingEnded s) :
    s.calls.countP (fun c => c.hasPushed ∧ c.task ∉ s.takenOff) = s.hold := by
  rw [List.countP_eq_length_filter, ← ho.length_unsettled, ← List.length_map ExecuteCall.task]
  refine List.Perm.length_eq ((List.perm_ext_iff_of_nodup ?_ (ho.nodup_unsettled hn he)).mpr ?_)
  · exact hn.nodup_task.sublist (List.filter_sublist.map _)
  · intro task
    rw [ho.mem_unsettled hn he]
    simp only [List.mem_map, List.mem_filter, decide_eq_true_eq]
    constructor
    · rintro ⟨c, ⟨hc, hpushed, hoff⟩, rfl⟩
      obtain ⟨i, hi⟩ := List.mem_iff_getElem?.mp hc
      obtain ⟨cur, hcur⟩ : ∃ cur, c.pc = .pushed cur := by
        cases hpc : c.pc <;> simp_all [ExecuteCall.hasPushed]
      have hdone := hn.done i c cur hi hcur
      rw [← hn.task i c hi] at hdone
      exact ⟨hdone, hoff⟩
    · rintro ⟨hpushed, hoff⟩
      obtain ⟨cur, hcur⟩ := hn.pushed task hpushed
      exact ⟨_, ⟨List.mem_of_getElem? hcur, rfl, hoff⟩, rfl⟩

/-! ## What the counter stands for -/

/-- What every run without a task that throws keeps. -/
structure Settled (options : Options) (s : GuardThreadExecutor) : Prop where
  regular : Regular options s
  numbered : Numbered s
  ending : EndingEnded s
  sorted : ∀ c ∈ s.calls, c.Sorted s.options.queueThreshold
  noThrow : ¬ s.worker.EndsThrown
  num : s.queueTaskNum = s.counted % 2 ^ 32

theorem settled_initialized : Settled options (initialized options) := by
  refine ⟨regular_initialized, numbered_initialized, ⟨?_⟩, ?_, ?_, ?_⟩ <;>
    simp [initialized, initializeWith, Worker.ending, Worker.EndsThrown, counted, hold, Worker.load]

/-- The comparison with the threshold sorts the calls. -/
theorem sorted_step {threshold : ℕ} (h : ∀ c ∈ s.calls, c.Sorted threshold)
    (hopt : s.options.queueThreshold = threshold) (hs : Step s a s') :
    ∀ c ∈ s'.calls, c.Sorted threshold := by
  have hmove : ∀ {i c pc}, ExecuteCall.Sorted threshold { c with pc := pc } →
      ∀ d ∈ s.move i c pc, d.Sorted threshold := by
    intro i c pc hc d hd
    rcases List.mem_or_eq_of_mem_set hd with hd | rfl
    · exact h d hd
    · exact hc
  cases hs with
  | call =>
    intro c hc
    rcases List.mem_append.mp hc with hc | hc
    · exact h c hc
    · simp [List.mem_singleton.mp hc, ExecuteCall.Sorted]
  | load _ _ | increment _ _ => exact hmove trivial
  | refuse _ _ hlt => exact hmove (hopt ▸ hlt)
  | accept _ _ hle => exact hmove (hopt ▸ hle)
  | @reject i c cur hc hpc | @push i c cur hc hpc =>
    have hsorted := h c (List.mem_of_getElem? hc)
    rw [ExecuteCall.Sorted, hpc] at hsorted
    exact hmove hsorted
  | _ => exact h

theorem noThrow_step (h : ¬ s.worker.EndsThrown) (ha : a ≠ .taskEnds true) (hs : Step s a s') :
    ¬ s'.worker.EndsThrown := by
  cases hs with
  | shutdownNotify _ | push _ _ =>
    cases hw : s.worker <;> simp_all [notified, Worker.EndsThrown]
  | @ends task rest threw _ | @drainEnds task threw _ =>
    cases threw with
    | false => simp [Worker.EndsThrown]
    | true => exact absurd rfl ha
  | initializes _ | leaves _ _ | waits _ _ | takes _ _ | sleeps _ _ _ | batchEnds _ | begins _
  | finishes _ | exits _ _ | drains _ _ | pops _ | wakeUp _ => simp [Worker.EndsThrown]
  | _ => exact h

theorem incremented_mod {n : ℕ} (h : s.queueTaskNum = n % 2 ^ 32) :
    s.incremented = (n + 1) % 2 ^ 32 := by
  rw [incremented, h, Nat.mod_add_mod]

theorem decremented_mod {n : ℕ} (h : s.queueTaskNum = (n + 1) % 2 ^ 32) :
    s.decremented = n % 2 ^ 32 := by
  unfold decremented
  omega

/-- Without a task that throws the counter is right, up to the width of its type. -/
theorem num_step (h : Regular options s) (hnum : s.queueTaskNum = s.counted % 2 ^ 32)
    (hthrow : ¬ s.worker.EndsThrown) (hs : Step s a s') :
    s'.queueTaskNum = s'.counted % 2 ^ 32 := by
  cases (hs.effect h.init.1 h.order).tally with
  | same counted num => rw [num, counted, hnum]
  | up counted num => rw [num, counted, incremented_mod hnum]
  | down counted num =>
    rw [counted] at hnum
    rw [num, decremented_mod hnum]
  | lost _ _ keeps =>
    cases a with
    | worker => exact absurd keeps hthrow
    | _ => exact absurd keeps id

theorem Settled.step (h : Settled options s) (ha : a ≠ .taskEnds true) (hs : Step s a s') :
    Settled options s' := by
  have hopt : s'.options.queueThreshold = s.options.queueThreshold := by
    rw [(hs.options_eq h.regular.init).2, h.regular.init.2]
  refine ⟨h.regular.step hs, h.numbered.step hs, h.ending.step hs, ?_, ?_, ?_⟩
  · rw [hopt]
    exact sorted_step h.sorted rfl hs
  · exact noThrow_step h.noThrow ha hs
  · exact num_step h.regular h.num h.noThrow hs

theorem run_settled (hr : run GuardThreadExecutor.step (initialized options) es = some u)
    (hthrow : Act.taskEnds true ∉ es) : Settled options u := by
  refine run_invariant_of_mem ?_ settled_initialized hr
  intro s a t h ha hs
  exact h.step (fun heq => hthrow (heq ▸ ha)) (step_cases hs)

/-! ## Rejection and room -/

/-- A call in flight is admitted or refused. -/
theorem inFlight_eq (threshold : ℕ) (c : ExecuteCall) :
    c.inFlight = c.admitted threshold + if c.refused threshold then 1 else 0 := by
  cases hpc : c.pc <;> simp [ExecuteCall.inFlight, ExecuteCall.admitted, ExecuteCall.refused, hpc]
  split <;> split <;> omega

theorem sum_inFlight_eq (threshold : ℕ) (calls : List ExecuteCall) :
    (calls.map ExecuteCall.inFlight).sum = (calls.map (ExecuteCall.admitted threshold)).sum +
      calls.countP (ExecuteCall.refused threshold) := by
  rw [countP_eq_sum_map, ← List.sum_map_add]
  exact congrArg List.sum (List.map_congr_left fun c _ => inFlight_eq threshold c)

/-- The task of a call that has not pushed is not taken off. -/
theorem Settled.notMem_takenOff (h : Settled options s) {c : ExecuteCall} (hc : c ∈ s.calls)
    (hpushed : c.hasPushed = false) : c.task ∉ s.takenOff := by
  intro hoff
  have htask : c.task ∈ s.pushed := by
    rw [h.regular.order.pushed_eq]
    exact List.mem_append_left _ (List.mem_filter.mp hoff).1
  obtain ⟨cur, hcur⟩ := h.numbered.pushed _ htask
  obtain ⟨i, hi⟩ := List.mem_iff_getElem?.mp hc
  rw [h.numbered.task i c hi, hi] at hcur
  cases hcur
  simp [ExecuteCall.hasPushed] at hpushed

/-- A call admitted has pushed its task, or is in flight. -/
theorem Settled.admitted_eq (h : Settled options s) {c : ExecuteCall} (hc : c ∈ s.calls) :
    (if c.count.any (· ≤ s.options.queueThreshold) ∧ c.task ∉ s.takenOff then 1 else 0) =
      (if c.hasPushed ∧ c.task ∉ s.takenOff then 1 else 0) +
        c.admitted s.options.queueThreshold := by
  have hsorted := h.sorted c hc
  have hoff := h.notMem_takenOff hc
  cases hpc : c.pc <;>
    simp_all [ExecuteCall.count, ExecuteCall.hasPushed, ExecuteCall.admitted, ExecuteCall.Sorted]

/-- The calls admitted are the tasks held and the calls in flight that are not refused. -/
theorem Settled.length_admittedCalls (h : Settled options s) :
    s.admittedCalls.length =
      s.hold + (s.calls.map (ExecuteCall.admitted s.options.queueThreshold)).sum := by
  rw [← countP_hasPushed h.regular.order h.numbered h.ending, admittedCalls,
    ← List.countP_eq_length_filter, countP_eq_sum_map, countP_eq_sum_map, ← List.sum_map_add]
  refine congrArg List.sum (List.map_congr_left fun c hc => ?_)
  simpa using h.admitted_eq hc

/-- The counter stands for the calls admitted and the calls refused. -/
theorem Settled.counted_eq (h : Settled options s) :
    s.counted = s.admittedCalls.length + s.refusedCalls.length := by
  rw [counted, h.length_admittedCalls, refusedCalls, ← List.countP_eq_length_filter,
    sum_inFlight_eq s.options.queueThreshold, Nat.add_assoc]

/-- A call has a count by its increment. -/
theorem Step.count_eq (hs : Step s a s') (hinit : s.state ≠ .preInit) {i cur : ℕ} {c : ExecuteCall}
    (hc : s'.calls[i]? = some c) (hcount : c.count = some cur) :
    (∃ d, s.calls[i]? = some d ∧ d.count = some cur) ∨
      a = .execute i ∧ s.Increments a ∧ s.incremented = cur := by
  have hmove : ∀ {j d pc}, s.calls[j]? = some d → ExecuteCall.count { d with pc := pc } = d.count →
      (s.move j d pc)[i]? = some c → ∃ d, s.calls[i]? = some d ∧ d.count = some cur := by
    intro j d pc hd hpc hmoved
    rw [move, List.getElem?_set] at hmoved
    split at hmoved
    · next hij =>
      subst hij
      split at hmoved
      · cases hmoved
        exact ⟨d, hd, hpc ▸ hcount⟩
      · exact absurd hmoved (by simp)
    · exact ⟨c, hmoved, hcount⟩
  cases hs with
  | initializes hpre => exact absurd hpre hinit
  | call =>
    rw [List.getElem?_append] at hc
    split at hc
    · exact Or.inl ⟨c, hc, hcount⟩
    · obtain rfl := List.mem_singleton.mp (List.mem_of_getElem? hc)
      exact absurd hcount (by simp [ExecuteCall.count])
  | @increment j d hd hpc =>
    rw [move, List.getElem?_set] at hc
    split at hc
    · next hij =>
      subst hij
      split at hc
      · cases hc
        exact Or.inr ⟨rfl, by simp [Increments, hd, hpc], by simpa [ExecuteCall.count] using hcount⟩
      · exact absurd hc (by simp)
    · exact Or.inl ⟨c, hc, hcount⟩
  | load hd hpc | refuse hd hpc _ | accept hd hpc _ | reject hd hpc | push hd hpc =>
    exact Or.inl (hmove hd (by simp [ExecuteCall.count, hpc]) hc)
  | _ => exact Or.inl ⟨c, hc, hcount⟩

/-- A call that is rejected has made an increment that was going to have it rejected. -/
theorem exists_refuses {i cur : ℕ} {c : ExecuteCall}
    (hr : run GuardThreadExecutor.step (initialized options) es = some u)
    (hc : u.calls[i]? = some c) (hpc : c.pc = .rejected cur) :
    ∃ es₁ es₂ s, es = es₁ ++ .execute i :: es₂ ∧
      run GuardThreadExecutor.step (initialized options) es₁ = some s ∧
      s.Refuses (.execute i) ∧ s.incremented = cur := by
  have hsorted : (u.state ≠ .preInit ∧ u.options = options) ∧
      ∀ c ∈ u.calls, c.Sorted options.queueThreshold := by
    refine run_invariant (P := fun s => (s.state ≠ .preInit ∧ s.options = options) ∧
      ∀ c ∈ s.calls, c.Sorted options.queueThreshold) ?_ ⟨regular_initialized.init, ?_⟩ hr
    · rintro s a t ⟨hopt, h⟩ hs
      have hstep := step_cases hs
      exact ⟨hstep.options_eq hopt, sorted_step h (by rw [hopt.2]) hstep⟩
    · simp [initialized, initializeWith]
  have hlt : options.queueThreshold < cur := by
    have h := hsorted.2 c (List.mem_of_getElem? hc)
    rwa [ExecuteCall.Sorted, hpc] at h
  obtain ⟨es₁, e, es₂, s, t, rfl, hs, hnot, hst, ⟨d, hd, hcount⟩, -⟩ :=
    exists_step_of_run (P := fun s => ∃ d, s.calls[i]? = some d ∧ d.count = some cur)
      (by simp [initialized, initializeWith]) hr ⟨c, hc, by simp [ExecuteCall.count, hpc]⟩
  have hopt := run_options hs
  obtain hbefore | ⟨rfl, hinc, hcur⟩ := (step_cases hst).count_eq hopt.1 hd hcount
  · exact absurd hbefore hnot
  · refine ⟨es₁, es₂, s, rfl, hs, ⟨hinc, ?_⟩, hcur⟩
    rw [verdict_eq_reject, hcur, hopt.2]
    exact hlt

/-- **A call is rejected only if the executor is full, as long as no call comes between the two
steps of a refused one.** In every run without a task that throws in which no call increments
between the increment and the decrement of a call refused, every increment that is going to have its
call rejected finds `queue_threshold` other calls admitted whose tasks are not taken off. -/
theorem rejects_only_when_full (hthrow : Act.taskEnds true ∉ es)
    (hafter : AllSteps GuardThreadExecutor.step AfterRefused (initialized options) es) :
    AllSteps GuardThreadExecutor.step RejectsFull (initialized options) es := by
  refine allSteps_of_cuts fun es₁ e es₂ s heq hs hrefuses => ?_
  subst heq
  have hnone : s.refusedCalls = [] := (hafter.cut hs).2 hrefuses.1
  have h : Settled options s := run_settled hs fun hmem => hthrow (List.mem_append_left _ hmem)
  have hcounted := h.counted_eq
  rw [hnone, List.length_nil, Nat.add_zero] at hcounted
  have hnum : s.queueTaskNum ≤ s.counted := h.num ▸ Nat.mod_le _ _
  have hlt : s.options.queueThreshold < s.incremented := verdict_eq_reject.mp hrefuses.2
  have hle : s.incremented ≤ s.queueTaskNum + 1 := by
    unfold incremented
    exact Nat.mod_le _ _
  omega

/-- With a threshold of `1`, the second and the third call are rejected one after the other while
the first task waits. -/
theorem rejects_only_when_full_one :
    AllSteps GuardThreadExecutor.step RejectsFull (initialized { queueThreshold := 1 })
      [.start, .call, .call, .call, .execute 0, .execute 0, .execute 1, .execute 1, .execute 1,
        .execute 0, .execute 0, .execute 1, .execute 2, .execute 2, .execute 2, .execute 2] :=
  rejects_only_when_full (by simp) (by decide +kernel)

/-- With a threshold of `1`, the task of call `0` has been run and taken off when call `2` comes.
Call `1` has been refused and has not decremented, so call `2` is rejected although no call is
admitted. -/
theorem rejected_with_room :
    ∃ s t c, run GuardThreadExecutor.step (initialized { queueThreshold := 1 })
        [.start, .call, .call, .call, .execute 0, .execute 0, .execute 0, .execute 0, .execute 1,
          .execute 1, .worker, .worker, .worker, .taskEnds false, .worker, .execute 2] = some s ∧
      s.Refuses (.execute 2) ∧ s.admittedCalls = [] ∧ ¬ s.RejectsFull (.execute 2) ∧
      run GuardThreadExecutor.step s [.execute 2, .execute 2, .execute 2] = some t ∧
      t.calls[2]? = some c ∧ c.pc = .rejected 2 := by
  have h : ((run GuardThreadExecutor.step (initialized { queueThreshold := 1 })
      [.start, .call, .call, .call, .execute 0, .execute 0, .execute 0, .execute 0, .execute 1,
        .execute 1, .worker, .worker, .worker, .taskEnds false, .worker, .execute 2]).map fun s =>
        (s.options.queueThreshold, decide (s.Refuses (.execute 2)), s.admittedCalls,
          (run GuardThreadExecutor.step s [.execute 2, .execute 2, .execute 2]).map
            (·.calls[2]?))) =
      some (1, true, [], some (some ⟨2, .rejected 2⟩)) := by
    decide +kernel
  obtain ⟨s, hs, hval⟩ := Option.map_eq_some_iff.mp h
  simp only [Prod.mk.injEq, decide_eq_true_eq] at hval
  obtain ⟨hthreshold, hrefuses, hnone, hafter⟩ := hval
  obtain ⟨t, ht, hcall⟩ := Option.map_eq_some_iff.mp hafter
  refine ⟨s, t, _, hs, hrefuses, hnone, fun hfull => ?_, ht, hcall, rfl⟩
  have hone := hfull hrefuses
  simp [hthreshold, hnone] at hone

end GuardThreadExecutor

end Ados.GuardThread
