import Ados.Core.AdosCore

/-!
# No executor survives

The executor manager of a core is initialized at most once, by the first `Initialize` that has
loaded its file, and its `Shutdown` is called by the first `ShutdownImpl` only. Whatever throws
before, at whatever executor, the registry is consistent then, so this one `Shutdown` finds every
executor that has been initialized and shuts it down, in the reverse order of their initialization.

## Main definitions

* `NamesDiffer`: the file names the main thread and the guard thread executor differently
* `AdosCore.Act.DistinctNames`: so does the file that a call loads, if it loads one
* `AdosCore.Tended`: what has been shut down, before `ShutdownImpl` and after it
* `AdosCore.CanCleanUp`: `ShutdownImpl` finds every executor, and the core can be destroyed

## Main results

* `AdosCore.Tended.step`: every call keeps it
* `AdosCore.executors_shut_down`: when the core has been destroyed or its `Start` has run to the
  end, every executor that was initialized has been shut down, once and in reverse order
-/

namespace Ados.Core

open Transition

variable {Node : Type}

/-- The configurator's `Initialize` returns only for the first time and with the file's root. -/
theorem ConfiguratorManager.initializeWith_post {cm : ConfiguratorManager Node} {path : String}
    {load : Except String (RootNode Node)} :
    (cm.initializeWith path load).Post
      (fun t => cm.state = .preInit ∧ t.state = .init ∧ load = .ok t.rootOptionsNode)
      (fun t => t.state = .init) False := by
  unfold initializeWith
  by_cases hstate : cm.state = .preInit
  · rw [if_pos hstate]
    by_cases hpath : path = ""
    · rw [if_pos hpath]
      rfl
    · rw [if_neg hpath]
      cases load with
      | ok root => exact ⟨hstate, rfl, rfl⟩
      | error what => rfl
  · rw [if_neg hstate]
    rfl

theorem ConfiguratorManager.start_post {cm : ConfiguratorManager Node} :
    cm.start.Post (fun t => t.state = .start) (fun t => t.state = .start) False := by
  unfold start
  split <;> rfl

/-- The executors that the manager's destructor destroys hold no thread. -/
theorem ExecutorManager.not_thread_of_joined {m : ExecutorManager Node} (h : ∀ n, m.Joined n) :
    ¬ ∃ e ∈ m.executorMap.entries, e.2.thread = true := by
  rintro ⟨e, he, hthread⟩
  have hlookup : m.executorMap.lookup e.1 = some e.2 := AList.mem_lookup_iff.mpr he
  rw [h e.1 e.2 hlookup] at hthread
  cases hthread

/-- What loading the file gives: the main thread and the guard thread executor get different names
from it, or it cannot be loaded. -/
def NamesDiffer (load : Except String (RootNode Node)) : Prop :=
  ∀ root node, load = .ok root → root "executor" = .ok node →
    ¬ ExecutorManager.SharesName node.executorsOptions

@[simp] theorem namesDiffer_error {what : String} :
    NamesDiffer (.error what : Except String (RootNode Node)) := nofun

namespace AdosCore

variable {c c' : AdosCore Node} {a : Act Node} {es : List (Act Node)}

/-- The names in the file that the call loads, if it loads one, differ. -/
def Act.DistinctNames : Act Node → Prop
  | .initializeWith _ load _ => NamesDiffer load
  | _ => True

/-- Before `ShutdownImpl` nothing has been shut down; after it every executor has been, and the
manager cannot start again. -/
structure Tended (c : AdosCore Node) : Prop where
  kept : c.executorManager.Kept
  fresh : c.configuratorManager.state = .preInit →
    c.executorManager = {} ∧ c.shutdownImplFlag = false
  before : c.shutdownImplFlag = false →
    c.executorManager.shutdowns = [] ∧ c.executorManager.state ≠ .shutdown
  after : c.shutdownImplFlag = true →
    c.executorManager.shutdowns = c.executorManager.initialized.reverse ∧
      c.executorManager.state ≠ .init ∧ ∀ n, c.executorManager.Joined n
  finished : c.ended = true ∨ c.destroyed = true → c.shutdownImplFlag = true

theorem tended_new : Tended ({} : AdosCore Node) := by
  refine ⟨ExecutorManager.kept_empty, fun _ => ⟨rfl, rfl⟩, fun _ => ⟨rfl, ?_⟩, ?_, ?_⟩ <;> simp

/-! ## The calls on the core -/

/-- Another state of the configurator, when it has been called before. -/
theorem Tended.withConfigurator (h : Tended c) {cm : ConfiguratorManager Node}
    (hcm : cm.state ≠ .preInit) : Tended (c.withConfigurator cm) :=
  ⟨h.kept, fun hpre => absurd hpre hcm, h.before, h.after, h.finished⟩

theorem Tended.initializeExecutors (h : Tended c) {root : RootNode Node}
    {faults : InitializeFaults Node} (hstate : c.configuratorManager.state = .init)
    (hroot : c.configuratorManager.rootOptionsNode = root)
    (hnew : c.executorManager = {}) (hflag : c.shutdownImplFlag = false)
    (hnames : ∀ node, root "executor" = .ok node →
      ¬ ExecutorManager.SharesName node.executorsOptions) :
    (c.initializeExecutors faults).Post Tended Tended False := by
  have hlisted : ∀ m : ExecutorManager Node, m.Registered → m.state = .init → m.shutdowns = [] →
      Tended (c.withManager m) := by
    intro m hm hinit hdowns
    refine ⟨⟨hm, fun hpre => ?_⟩, fun hpre => ?_, fun _ => ⟨hdowns, ?_⟩, fun hset => ?_, h.finished⟩
    · simp [withManager, hinit] at hpre
    · simp [withManager, hstate] at hpre
    · simp [withManager, hinit]
    · simp [withManager, hflag] at hset
  unfold AdosCore.initializeExecutors
  rw [ConfiguratorManager.getNodeOptionsByKey, if_pos hstate, hroot, hnew]
  cases hnode : root "executor" with
  | error what => exact h
  | ok node =>
    refine (ExecutorManager.initializeWith_post.imp (fun t ht => ht) (fun t ht => ht)
      (hnames node hnode)).map ?_ ?_
    · rintro m ⟨k, -, hm⟩
      exact hlisted m hm.registered hm.state hm.shutdowns
    · intro m hm
      exact hlisted m hm.registered hm.state hm.shutdowns

theorem Tended.initializeWith (h : Tended c) {path : String}
    {load : Except String (RootNode Node)} {faults : InitializeFaults Node}
    (hnames : (Act.initializeWith path load faults).DistinctNames) :
    (c.initializeWith path load faults).Post Tended Tended False := by
  unfold AdosCore.initializeWith
  refine Call.Post.andThen (P := fun t => Tended t ∧ t.executorManager = {} ∧
    t.shutdownImplFlag = false ∧ t.configuratorManager.state = .init ∧
    load = .ok t.configuratorManager.rootOptionsNode) ?_ ?_
  · refine ConfiguratorManager.initializeWith_post.map ?_ ?_
    · rintro cm ⟨hpre, hcm, hload⟩
      -- the first call that gets this far finds the manager as it was built
      obtain ⟨hnew, hflag⟩ := h.fresh hpre
      exact ⟨h.withConfigurator (by simp [hcm]), hnew, hflag, hcm, hload⟩
    · intro cm hcm
      exact h.withConfigurator (by simp [hcm])
  · rintro t ⟨ht, hnew, hflag, hcm, hload⟩
    exact ht.initializeExecutors hcm rfl hnew hflag fun node => hnames _ node hload

/-- `Start` of the manager; after `ShutdownImpl` it throws at once. -/
theorem Tended.startManager (h : Tended c) {faults : StartFaults}
    (hcm : c.configuratorManager.state ≠ .preInit) :
    ((c.executorManager.start faults).map c.withManager).Post Tended Tended False := by
  have hreg := h.kept.registered
  cases hflag : c.shutdownImplFlag with
  | false =>
    obtain ⟨hdowns, -⟩ := h.before hflag
    have hkeep : ∀ m : ExecutorManager Node, ExecutorManager.SameExecutors c.executorManager m →
        m.state = .start → m.shutdowns = c.executorManager.shutdowns →
        Tended (c.withManager m) := by
      intro m hsame hm hsame_downs
      refine ⟨⟨hsame.registered, fun hpre => ?_⟩, fun hpre => absurd hpre hcm,
        fun _ => ⟨hsame_downs.trans hdowns, ?_⟩, fun hset => ?_, h.finished⟩
      · simp [withManager, hm] at hpre
      · simp [withManager, hm]
      · simp [withManager, hflag] at hset
    refine (ExecutorManager.start_post hreg).map ?_ ?_
    · rintro m ⟨hsame, hm, hdowns, -⟩
      exact hkeep m hsame hm hdowns
    · rintro m ⟨hsame, hm, hdowns⟩
      exact hkeep m hsame hm hdowns
  | true =>
    obtain ⟨hdowns, hstate, hjoined⟩ := h.after hflag
    rw [ExecutorManager.start, if_neg hstate]
    refine ⟨⟨hreg.of_eq rfl rfl rfl, fun hpre => ?_⟩, fun hpre => absurd hpre hcm, fun hunset => ?_,
      fun _ => ⟨hdowns, ?_, hjoined⟩, h.finished⟩
    · simp [withManager] at hpre
    · simp [withManager, hflag] at hunset
    · simp [withManager]

theorem Tended.startImpl (h : Tended c) {faults : StartFaults} :
    (c.startImpl faults).Post Tended Tended False := by
  unfold AdosCore.startImpl
  refine Call.Post.andThen (P := fun t => Tended t ∧ t.configuratorManager.state ≠ .preInit) ?_ ?_
  · refine ConfiguratorManager.start_post.map ?_ ?_
    · intro cm hcm
      exact ⟨h.withConfigurator (by simp [hcm]), by simp [AdosCore.withConfigurator, hcm]⟩
    · intro cm hcm
      exact h.withConfigurator (by simp [hcm])
  · rintro t ⟨ht, hcm⟩
    exact ht.startManager hcm

theorem Tended.start (h : Tended c) {faults : StartFaults} :
    (c.start faults).Post Tended Tended False := by
  refine h.startImpl.andThen fun t ht => ?_
  unfold getFuture
  split
  · exact ht
  · exact ⟨ht.kept, ht.fresh, ht.before, ht.after, ht.finished⟩

/-- `ShutdownImpl` returns: it finds every executor. -/
theorem Tended.shutdownImpl (h : Tended c) :
    c.shutdownImpl.Post (fun t => Tended t ∧ t.shutdownImplFlag = true) (fun _ => False) False := by
  unfold AdosCore.shutdownImpl
  cases hflag : c.shutdownImplFlag with
  | true => exact ⟨h, hflag⟩
  | false =>
    obtain ⟨hdowns, hstate⟩ := h.before hflag
    refine Call.Post.andThen (P := fun t => t.shutdownImplFlag = true ∧
      t.executorManager.Registered ∧ t.executorManager.state = .shutdown ∧
      t.executorManager.shutdowns = t.executorManager.initialized.reverse ∧
      ∀ n, t.executorManager.Joined n) ?_ ?_
    · refine (ExecutorManager.shutdown_post h.kept.registered hstate).map ?_ fun _ => False.elim
      rintro m ⟨hsame, hm, hshut, hjoined⟩
      refine ⟨rfl, hsame.registered, hm, ?_, hjoined⟩
      simp only [withManager, hshut, hdowns, hsame.initialized, List.nil_append]
    · rintro t ⟨hset, hreg, hm, hshut, hjoined⟩
      refine ⟨⟨⟨hreg, fun hpre => ?_⟩, fun hpre => ?_, fun hunset => ?_,
        fun _ => ⟨hshut, ?_, hjoined⟩, fun _ => hset⟩, hset⟩
      · simp [AdosCore.withConfigurator, hm] at hpre
      · simp [AdosCore.withConfigurator, ConfiguratorManager.shutdown] at hpre
      · simp [AdosCore.withConfigurator, hset] at hunset
      · simp [AdosCore.withConfigurator, hm]

/-- The rest of `Start` returns. -/
theorem Tended.resume (h : Tended c) : c.resume.Post Tended (fun _ => False) False := by
  have hwoken : Tended { c with waiting := false } :=
    ⟨h.kept, h.fresh, h.before, h.after, h.finished⟩
  apply hwoken.shutdownImpl.andThen
  rintro t ⟨ht, hset⟩
  exact ⟨ht.kept, ht.fresh, ht.before, ht.after, fun _ => hset⟩

/-- The destructor returns: no executor holds a thread any more. -/
theorem Tended.destroy (h : Tended c) : c.destroy.Post Tended (fun _ => False) False := by
  obtain ⟨t, hcall, ht, hset⟩ := h.shutdownImpl.exists_returns
  obtain ⟨-, -, hjoined⟩ := ht.after hset
  unfold AdosCore.destroy destroyMembers
  rw [hcall]
  simp only [if_neg (ExecutorManager.not_thread_of_joined hjoined)]
  exact ⟨ht.kept, ht.fresh, ht.before, ht.after, fun _ => hset⟩

theorem Tended.step (h : Tended c) (hnames : a.DistinctNames) (hs : step c a = some c') :
    Tended c' := by
  unfold AdosCore.step at hs
  split at hs
  · cases hs
  cases a with
  | initializeWith path load faults => exact (h.initializeWith hnames).of_after hs
  | start faults => exact h.start.of_after hs
  | resume =>
    simp only at hs
    split at hs
    · exact (h.resume.imp (fun t ht => ht) (fun _ => False.elim) id).of_after hs
    · cases hs
  | shutdown =>
    cases hs
    exact ⟨h.kept, h.fresh, h.before, h.after, h.finished⟩
  | destroy =>
    simp only at hs
    split at hs
    · cases hs
    · exact (h.destroy.imp (fun t ht => ht) (fun _ => False.elim) id).of_after hs

/-! ## Runs of calls -/

/-- `ShutdownImpl` returns, so every lookup on its way succeeds; and unless a `Start` waits, the
core can be destroyed. -/
structure CanCleanUp (c : AdosCore Node) : Prop where
  shuts_down : ∃ t, c.shutdownImpl = .returns t
  destroys : c.destroyed = false → c.waiting = false → ∃ t, AdosCore.step c .destroy = some t

theorem Tended.canCleanUp (h : Tended c) : CanCleanUp c := by
  refine ⟨h.shutdownImpl.exists_returns.imp fun t ht => ht.1, fun hlive hidle => ?_⟩
  obtain ⟨t, ht⟩ := h.destroy.exists_after
  refine ⟨t, ?_⟩
  unfold AdosCore.step
  simp [hlive, hidle, ht]

/-- **No executor survives.** In every run in which the file names the main thread and the guard
thread executor differently, and whatever throws in it: once the core has been destroyed or its
`Start` has run to the end, `Shutdown` has been called of every executor whose `Initialize`
returned, once, in the reverse order of their initialization; and at every point `ShutdownImpl`
finds every executor in the map, and the destructor returns. -/
theorem executors_shut_down (hr : run step {} es = some c) (hnames : ∀ a ∈ es, a.DistinctNames) :
    (c.ended = true ∨ c.destroyed = true →
      c.executorManager.initialized.Nodup ∧
      c.executorManager.shutdowns = c.executorManager.initialized.reverse) ∧
    AllStates step CanCleanUp {} es := by
  constructor
  · intro hdone
    have h : Tended c :=
      run_invariant_of_mem (fun s a t hs ha ht => hs.step (hnames a ha) ht) tended_new hr
    exact ⟨h.kept.registered.nodup_initialized, (h.after (h.finished hdone)).1⟩
  · have hq : AllSteps step (fun _ a => a.DistinctNames) ({} : AdosCore Node) es := by
      refine allSteps_of_cuts fun es₁ a es₂ t heq _ => hnames a ?_
      simp [heq]
    exact (allStates_of_allSteps (fun s a t hs ha ht => hs.step ha ht) tended_new hq).imp
      fun t ht => ht.canCleanUp

/-- The thread of a time wheel executor cannot be created, and the core is destroyed. -/
theorem executors_shut_down_no_thread :
    ∃ c : AdosCore Unit,
      run step {} [.initializeWith "cfg.yaml"
          (.ok fun _ => .ok (.decodes [⟨"timer", "time_wheel", none⟩])) fun _ _ _ => none,
        .start fun name => if name = "timer" then some "Resource temporarily unavailable" else none,
        .destroy] = some c ∧ c.destroyed = true ∧
      c.executorManager.shutdowns =
        [⟨2, .timeWheel, "timer"⟩, ⟨1, .guardThread, "nxpilot_guard"⟩,
          ⟨0, .mainThread, "nxpilot_main"⟩] ∧
      c.executorManager.shutdowns = c.executorManager.initialized.reverse := by
  have hnames : ∀ a ∈ ([.initializeWith "cfg.yaml"
        (.ok fun _ => .ok (.decodes [⟨"timer", "time_wheel", none⟩])) fun _ _ _ => none,
      .start fun name => if name = "timer" then some "Resource temporarily unavailable" else none,
      .destroy] : List (Act Unit)), a.DistinctNames := by
    intro a ha
    simp only [List.mem_cons, List.not_mem_nil, or_false] at ha
    rcases ha with rfl | rfl | rfl
    · rintro root node hroot hnode ⟨k, hk, heq⟩
      cases hroot
      cases hnode
      cases hk
      exact absurd heq (by decide)
    · trivial
    · trivial
  exact ⟨_, rfl, rfl, rfl, ((executors_shut_down rfl hnames).1 (Or.inr rfl)).2⟩

end AdosCore

end Ados.Core
