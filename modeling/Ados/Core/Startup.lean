import Ados.Core.Registry
import Mathlib.Data.List.Induction

/-!
# Starting the executor manager

`Initialize` writes `kInit` before it has looked at its options, and also when it throws because the
manager has been initialized before; `Start` tests for `kInit` and for nothing else. So after an
`Initialize` that threw, `Start` returns if only the executors that are there can be started. What a
manager can become is settled by the first call made on it: if that is an `Initialize` that returns,
the executors stay those of its list, and if it is not, no `Initialize` ever returns.

## Main definitions

* `ExecutorManager.FullyStarted`: an earlier `Initialize` has returned, and the executors of the
  configuration have been started
* `ExecutorManager.BeginsWell`: the first call is an `Initialize` with an acceptable list

## Main results

* `ExecutorManager.namesExecutors`: the entries of an acceptable list name executors, unless there
  are more than the index can count
* `ExecutorManager.same_run`: no call after the first changes the options or the executors
* `ExecutorManager.start_fully_iff`: a `Start` that returns has started a fully initialized manager
  exactly if the calls begin well
-/

namespace Ados.Core.ExecutorManager

open Transition

variable {Node : Type} {m t u : ExecutorManager Node} {es : List (Act Node)}

/-- An `Initialize` of the run has returned normally, and every executor that the options name is in
the map and has been started. -/
def FullyStarted (es : List (Act Node)) (t : ExecutorManager Node) : Prop :=
  (∃ es₁ node faults es₂ u v, es = es₁ ++ .initializeWith node faults :: es₂ ∧
    run step {} es₁ = some u ∧ u.initializeWith node faults = .returns v) ∧
  ∀ o ∈ t.options, Started t o.name

/-- Every entry has the name of an executor that is created for the list. An entry of a single
executor lacks it only if a later one has taken its place, `2 ^ 32` entries behind it. -/
def NamesExecutors (c : OptionsCheck Node) (l : List (ExecutorOptions Node)) : Prop :=
  ∀ o ∈ l, o.name ∈ (labels c l).map Prod.snd

/-- The first call is an `Initialize` with an acceptable list whose entries name executors. -/
def BeginsWell : List (Act Node) → Prop
  | .initializeWith node faults :: _ =>
    ∃ c, Accepts faults node c ∧ NamesExecutors c node.executorsOptions
  | _ => False

theorem beginsWell_iff : BeginsWell es ↔ ∃ node faults es₂,
    es = .initializeWith node faults :: es₂ ∧
      ∃ c, Accepts faults node c ∧ NamesExecutors c node.executorsOptions := by
  constructor
  · intro h
    cases es with
    | nil => exact h.elim
    | cons a es₂ =>
      cases a with
      | initializeWith node faults => exact ⟨node, faults, es₂, rfl, h⟩
      | start faults => exact h.elim
      | shutdown => exact h.elim
  · rintro ⟨node, faults, es₂, rfl, h⟩
    exact h

/-! ## Lists that the index can count -/

section Checked

variable {l : List (ExecutorOptions Node)} {c c' : OptionsCheck Node} {o : ExecutorOptions Node}

/-- What the first pass has found when `l` is behind it, the index not having wrapped around. -/
structure Checked (l : List (ExecutorOptions Node)) (c : OptionsCheck Node) : Prop where
  idx : c.idx = l.length % 2 ^ 32
  detected : c.detectedMainThreadOptions = true → ∃ o ∈ l, o.type = "main_thread"
  mainThread : ∀ o ∈ l, o.type = "main_thread" → o.name = c.mainThreadName
  guardThread : ∀ o ∈ l, o.type = "guard_thread" → o.name = c.guardThreadName

theorem Checked.nextIdx (h : Checked l c) : c.nextIdx = (l ++ [o]).length % 2 ^ 32 := by
  rw [OptionsCheck.nextIdx, h.idx, List.length_append, List.length_singleton]
  omega

/-- An entry that is not of the main thread executor leaves its findings as they are. -/
theorem Checked.append (h : Checked l c) (hmain : o.type ≠ "main_thread")
    (hname : c'.mainThreadName = c.mainThreadName) (hidx : c'.idx = c.nextIdx)
    (hdet : c'.detectedMainThreadOptions = c.detectedMainThreadOptions)
    (hguard : ∀ p ∈ l ++ [o], p.type = "guard_thread" → p.name = c'.guardThreadName) :
    Checked (l ++ [o]) c' := by
  refine ⟨hidx.trans h.nextIdx, fun hset => ?_, ?_, hguard⟩
  · obtain ⟨p, hp, hpm⟩ := h.detected (hdet ▸ hset)
    exact ⟨p, List.mem_append_left _ hp, hpm⟩
  · rw [hname]
    exact List.forall_mem_append.mpr
      ⟨h.mainThread, List.forall_mem_singleton.mpr fun hpm => absurd hpm hmain⟩

/-- An accepted guard thread entry has no other before it: there is nothing, or the main thread
entry only. -/
theorem Checked.no_guard_thread (h : Checked l c) (hidx : c.idx = l.length)
    (hplace : c.idx = 0 ∧ c.detectedMainThreadOptions = false ∨
      c.idx = 1 ∧ c.detectedMainThreadOptions = true) :
    ∀ p ∈ l, p.type ≠ "guard_thread" := by
  intro p hp hpg
  rcases hplace with ⟨hzero, -⟩ | ⟨hone, hdet⟩
  · obtain rfl : l = [] := List.length_eq_zero_iff.mp (hidx.symm.trans hzero)
    simp at hp
  · obtain ⟨q, rfl⟩ := List.length_eq_one_iff.mp (hidx.symm.trans hone)
    obtain ⟨r, hr, hrm⟩ := h.detected hdet
    obtain rfl := List.mem_singleton.mp hp
    obtain rfl := List.mem_singleton.mp hr
    simp [hpg] at hrm

theorem Checked.checkOption (h : Checked l c) (hlen : l.length < 2 ^ 32)
    (hc : checkOption c o = .ok c') : Checked (l ++ [o]) c' := by
  have hidx : c.idx = l.length := by
    have := h.idx
    omega
  unfold Core.checkOption at hc
  by_cases hmain : o.type = "main_thread"
  · rw [if_pos hmain] at hc
    split at hc
    · obtain rfl : l = [] := List.length_eq_zero_iff.mp (by omega)
      cases hc
      exact ⟨h.nextIdx, fun _ => ⟨o, by simp, hmain⟩, by simp, by simp [hmain]⟩
    · cases hc
  rw [if_neg hmain] at hc
  by_cases hguard : o.type = "guard_thread"
  · rw [if_pos hguard] at hc
    split at hc
    next hplace =>
      cases hc
      refine h.append hmain rfl rfl rfl (List.forall_mem_append.mpr ⟨fun p hp hpg => ?_, ?_⟩)
      · exact absurd hpg (h.no_guard_thread hidx hplace p hp)
      · exact List.forall_mem_singleton.mpr fun _ => rfl
    · cases hc
  · rw [if_neg hguard] at hc
    cases hc
    exact h.append hmain rfl rfl rfl (List.forall_mem_append.mpr
      ⟨h.guardThread, List.forall_mem_singleton.mpr fun hpg => absurd hpg hguard⟩)

theorem checked (hlen : l.length ≤ 2 ^ 32) (hc : checkOptions l = .ok c) : Checked l c := by
  induction l using List.reverseRecOn generalizing c with
  | nil =>
    cases hc
    exact ⟨rfl, by simp, by simp, by simp⟩
  | append_singleton l o ih =>
    rw [checkOptions_concat] at hc
    rw [List.length_append, List.length_singleton] at hlen
    cases hl : checkOptions l with
    | error what =>
      rw [hl] at hc
      cases hc
    | ok b =>
      rw [hl] at hc
      exact (ih (by omega) hl).checkOption (by omega) hc

/-- In a list of at most `2 ^ 32` entries every entry names an executor. -/
theorem namesExecutors {faults : InitializeFaults Node} {node : OptionsNode Node}
    (h : Accepts faults node c) (hlen : node.executorsOptions.length ≤ 2 ^ 32) :
    NamesExecutors c node.executorsOptions := by
  intro o ho
  have hchecked := checked hlen h.placed
  rcases h.types o ho with hmain | hguard | hwheel
  · simp [labels, hchecked.mainThread o ho hmain]
  · simp [labels, hchecked.guardThread o ho hguard]
  · have hmem : o ∈ timeWheels node.executorsOptions := by simp [timeWheels, ho, hwheel]
    simp only [labels, List.map_cons, List.map_map, List.mem_cons, List.mem_map]
    exact Or.inr (Or.inr ⟨o, hmem, rfl⟩)

end Checked

/-! ## After the first call -/

theorem SameExecutors.trans (h : SameExecutors m t) (h' : SameExecutors t u) :
    SameExecutors m u :=
  ⟨h'.registered, h'.options.trans h.options, h'.initialized.trans h.initialized⟩

/-- A call that is not the first keeps the options and the executors. -/
theorem same_step (h : Kept m) (hstate : m.state ≠ .preInit) {a : Act Node}
    (hs : step m a = some t) : SameExecutors m t := by
  have hpost : (m.call a).Post (SameExecutors m) (SameExecutors m) True := by
    cases a with
    | initializeWith node faults =>
      rw [call, initializeWith_again hstate]
      exact .withState h.registered
    | start faults =>
      exact (start_post h.registered).imp (fun t ht => ht.1) (fun t ht => ht.1) fun _ => trivial
    | shutdown =>
      by_cases hdown : m.state = .shutdown
      · rw [call, shutdown_again hdown]
        exact .refl h.registered
      · exact (shutdown_post h.registered hdown).imp (fun t ht => ht.1) (fun _ => False.elim)
          fun _ => trivial
  exact hpost.of_after hs

theorem same_run (h : Kept m) (hstate : m.state ≠ .preInit) (hr : run step m es = some t) :
    SameExecutors m t := by
  refine (run_invariant (P := fun s => Kept s ∧ s.state ≠ .preInit ∧ SameExecutors m s) ?_
    ⟨h, hstate, .refl h.registered⟩ hr).2.2
  rintro s a u ⟨hs, hne, hsame⟩ hu
  exact ⟨hs.step hu, hs.state_ne_preInit hu, hsame.trans (same_step hs hne hu)⟩

/-- A run that begins with an `Initialize` that returns keeps the executors it has created. -/
theorem same_run_of_returns {node : OptionsNode Node} {faults : InitializeFaults Node}
    (hu : initializeWith node faults {} = .returns u) (hstate : u.state = .init)
    (hr : run step {} (.initializeWith node faults :: es) = some t) : SameExecutors u t := by
  obtain ⟨w, hw, hr⟩ := run_cons_eq_some.mp hr
  have hkept : Kept w := kept_empty.step hw
  rw [step, call, hu] at hw
  obtain rfl : u = w := Option.some.inj hw
  exact same_run hkept (by simp [hstate]) hr

/-- Only before the first call is the manager as it was built. -/
theorem eq_nil_of_run (hr : run step ({} : ExecutorManager Node) es = some {}) : es = [] := by
  rcases List.eq_nil_or_concat es with rfl | ⟨es', a, rfl⟩
  · rfl
  · rw [List.concat_eq_append] at hr
    obtain ⟨u, hu, hs⟩ := run_snoc_eq_some.mp hr
    exact absurd rfl ((kept_run hu).state_ne_preInit hs)

/-! ## `Start` -/

/-- **When `Start` returns**, it has started a fully initialized manager exactly if the first call
made on the manager was an `Initialize` with an acceptable list. -/
theorem start_fully_iff {faults : StartFaults} (hr : run step {} es = some m)
    (ht : m.start faults = .returns t) : FullyStarted es t ↔ BeginsWell es := by
  have hm := kept_run hr
  obtain ⟨hsame, -, -, -, hstarted⟩ := (start_post hm.registered).of_returns ht
  constructor
  · rintro ⟨⟨es₁, node, faults₁, es₂, u, v, rfl, hu, hv⟩, hnamed⟩
    obtain ⟨rfl, c, hc, hlisted⟩ := (kept_run hu).completed hv
    obtain rfl := eq_nil_of_run hu
    have hsame' := (same_run_of_returns hv hlisted.state hr).trans hsame
    refine ⟨c, hc, fun o ho => ?_⟩
    obtain ⟨x, hx, -⟩ := hnamed o (by rw [hsame'.options, hlisted.options]; exact ho)
    have hmem : o.name ∈ t.executorMap := AList.lookup_isSome.mp (by rw [hx]; rfl)
    rwa [hsame'.registered.keys, hsame'.registered.names_eq, hsame'.initialized,
      hlisted.labels_eq] at hmem
  · intro hbegins
    obtain ⟨node, faults₁, es₂, rfl, c, hc, hnames⟩ := beginsWell_iff.mp hbegins
    obtain ⟨v, hv⟩ := exists_returns_iff.mpr ⟨c, hc⟩
    refine ⟨⟨[], node, faults₁, es₂, {}, v, rfl, rfl, hv⟩, fun o ho => ?_⟩
    obtain ⟨-, c', hc', hlisted⟩ := kept_empty.completed hv
    obtain rfl : c' = c := Except.ok.inj (hc'.placed.symm.trans hc.placed)
    have hsame' := same_run_of_returns hv hlisted.state hr
    rw [hsame.options, hsame'.options, hlisted.options] at ho
    apply hstarted o.name
    rw [hm.registered.names_eq, hsame'.initialized, hlisted.labels_eq]
    exact hnames o ho

theorem start_fully_iff_wheel :
    ∃ m t : ExecutorManager Unit,
      run step {} [.initializeWith (.decodes [⟨"timer", "time_wheel", none⟩]) fun _ _ _ => none] =
        some m ∧ m.start (fun _ => none) = .returns t ∧ Started t "timer" ∧
      (FullyStarted [.initializeWith (.decodes [⟨"timer", "time_wheel", none⟩])
          fun _ _ _ => none] t ↔
        BeginsWell [.initializeWith (.decodes [⟨"timer", "time_wheel", (none : Option Unit)⟩])
          fun _ _ _ => none]) := by
  have h : ∀ (es : List (Act Unit)) m t, run step {} es = some m →
      m.start (fun _ => none) = .returns t → (FullyStarted es t ↔ BeginsWell es) :=
    fun es m t hr ht => start_fully_iff hr ht
  exact ⟨_, _, rfl, rfl, ⟨_, rfl, rfl⟩, h _ _ _ rfl rfl⟩

/-- An `Initialize` throws at an executor of an unknown type, and `Start` returns without it. -/
theorem start_half_initialized :
    ∃ m t : ExecutorManager Unit,
      initializeWith (.decodes [⟨"pool", "thread_pool", none⟩]) (fun _ _ _ => none) {} =
        .throws m "Invalid executor type 'thread_pool'" ∧
      m.start (fun _ => none) = .returns t ∧
      ¬ FullyStarted [.initializeWith (.decodes [⟨"pool", "thread_pool", none⟩])
        fun _ _ _ => none] t := by
  refine ⟨_, _, rfl, rfl, fun h => ?_⟩
  obtain ⟨x, hx, -⟩ := h.2 ⟨"pool", "thread_pool", none⟩ (List.mem_singleton_self _)
  cases hx

end Ados.Core.ExecutorManager
