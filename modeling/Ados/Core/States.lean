import Ados.Core.Signals

/-!
# The states of the core

`EnterState` writes `state_` and runs the hooks of the state, of which there are none. The calls of
the core enter a state before and after they call a manager; what throws leaves the states after it
out, and `ShutdownImpl` enters its own whatever has been left out before.

## Main definitions

* `AdosCoreState`: the states, in their order
* `Entering`: a core with the states it has entered, and its calls
* `Process.enters`: the states that are entered in a step of the process
* `Process.Entered`: what has been entered when `main` is at a point

## Main results

* `Entering.initializeWith_core`, `Entering.start_core`, `Entering.resume_core`,
  `Entering.destroy_core`: the calls are those of the core
* `Process.states_entered`: the states are entered in their order, none of them twice
-/

namespace Ados.Core

open Transition

variable {Node : Type}

/-- `AdosCore::State`, up to `kMaxStateNum`. -/
inductive AdosCoreState where
  | preInit
  | preInitConfigurator | postInitConfigurator
  | preInitPlugin | postInitPlugin
  | preInitExecutor | postInitExecutor
  | preInitLog | postInitLog
  | preInitAllocator | postInitAllocator
  | preInitRpc | postInitRpc
  | preInitChannel | postInitChannel
  | preInitParameter | postInitParameter
  | preInitModules | postInitModules
  | postInit
  | preStart
  | preStartConfigurator | postStartConfigurator
  | preStartPlugin | postStartPlugin
  | preStartExecutor | postStartExecutor
  | preStartLog | postStartLog
  | preStartAllocator | postStartAllocator
  | preStartRpc | postStartRpc
  | preStartChannel | postStartChannel
  | preStartParameter | postStartParameter
  | preStartModules | postStartModules
  | postStart
  | preShutdown
  | preShutdownModules | postShutdownModules
  | preShutdownParameter | postShutdownParameter
  | preShutdownChannel | postShutdownChannel
  | preShutdownRpc | postShutdownRpc
  | preShutdownAllocator | postShutdownAllocator
  | preShutdownLog | postShutdownLog
  | preShutdownExecutor | postShutdownExecutor
  | preShutdownPlugin | postShutdownPlugin
  | preShutdownConfigurator | postShutdownConfigurator
  | postShutdown
  deriving DecidableEq, Repr

/-- `static_cast<uint32_t>(state)`. -/
def AdosCoreState.num (state : AdosCoreState) : ℕ := state.ctorIdx

/-- A core, and the states it has entered, the last one last. -/
structure Entering (Node : Type) where
  core : AdosCore Node
  entered : List AdosCoreState := []

namespace Entering

/-- `EnterState`, where no hook is registered. -/
def enterState (state : AdosCoreState) (e : Entering Node) : Entering Node :=
  { e with entered := e.entered ++ [state] }

/-- A call on the core itself. -/
def onCore (f : AdosCore Node → Call String (AdosCore Node)) (e : Entering Node) :
    Call String (Entering Node) :=
  (f e.core).map fun c => { e with core := c }

/-- `Initialize`. -/
def initializeWith (cfgFilePath : String) (load : Except String (RootNode Node))
    (faults : InitializeFaults Node) (e : Entering Node) : Call String (Entering Node) :=
  (((e.enterState .preInit).enterState .preInitConfigurator).onCore fun c =>
    (c.configuratorManager.initializeWith cfgFilePath load).map c.withConfigurator).andThen fun e =>
  (((e.enterState .postInitConfigurator).enterState .preInitExecutor).onCore
    (AdosCore.initializeExecutors faults)).andThen fun e =>
  .returns ((e.enterState .postInitExecutor).enterState .postInit)

/-- `StartImpl`. -/
def startImpl (faults : StartFaults) (e : Entering Node) : Call String (Entering Node) :=
  (((e.enterState .preStart).enterState .preStartConfigurator).onCore fun c =>
    c.configuratorManager.start.map c.withConfigurator).andThen fun e =>
  (((e.enterState .postStartConfigurator).enterState .preStartExecutor).onCore fun c =>
    (c.executorManager.start faults).map c.withManager).andThen fun e =>
  .returns ((e.enterState .postStartExecutor).enterState .postStart)

/-- `Start`, up to the wait for `shutdown_promise_`. -/
def start (faults : StartFaults) (e : Entering Node) : Call String (Entering Node) :=
  (e.startImpl faults).andThen (onCore AdosCore.getFuture)

/-- `ShutdownImpl`. -/
def shutdownImpl (e : Entering Node) : Call String (Entering Node) :=
  if e.core.shutdownImplFlag then .returns e
  else
    (((e.enterState .preShutdown).enterState .preShutdownExecutor).onCore fun c =>
      c.executorManager.shutdown.map { c with shutdownImplFlag := true }.withManager).andThen
        fun e =>
    (((e.enterState .postShutdownExecutor).enterState .preShutdownConfigurator).onCore fun c =>
      .returns (c.withConfigurator c.configuratorManager.shutdown)).andThen fun e =>
    .returns ((e.enterState .postShutdownConfigurator).enterState .postShutdown)

/-- The rest of `Start`, after the wait. -/
def resume (e : Entering Node) : Call String (Entering Node) :=
  (shutdownImpl { e with core := { e.core with waiting := false } }).andThen
    (onCore fun c => .returns { c with ended := true })

/-- The destructor. -/
def destroy (e : Entering Node) : Call String (Entering Node) :=
  match e.shutdownImpl with
  | .returns e => e.onCore AdosCore.destroyMembers
  | .throws e _ => e.onCore AdosCore.destroyMembers
  | .terminates => .terminates

/-! ## The calls are those of the core -/

variable {e : Entering Node}

@[simp] theorem onCore_core (f : AdosCore Node → Call String (AdosCore Node)) :
    (e.onCore f).map core = f e.core := by
  rw [onCore, Call.map_map]
  cases f e.core <;> rfl

theorem initializeWith_core {path : String} {load : Except String (RootNode Node)}
    {faults : InitializeFaults Node} :
    (e.initializeWith path load faults).map core = e.core.initializeWith path load faults := by
  unfold initializeWith
  rw [Call.andThen_map (k := AdosCore.initializeExecutors faults), onCore_core]
  · rfl
  · intro e
    rw [Call.andThen_map (k := .returns) fun _ => rfl, onCore_core, Call.andThen_returns]
    rfl

theorem startImpl_core {faults : StartFaults} :
    (e.startImpl faults).map core = e.core.startImpl faults := by
  unfold startImpl
  rw [Call.andThen_map (k := fun c => (c.executorManager.start faults).map c.withManager),
    onCore_core]
  · rfl
  · intro e
    rw [Call.andThen_map (k := .returns) fun _ => rfl, onCore_core, Call.andThen_returns]
    rfl

theorem start_core {faults : StartFaults} :
    (e.start faults).map core = e.core.start faults := by
  unfold start
  rw [Call.andThen_map fun _ => onCore_core _, startImpl_core]
  rfl

theorem shutdownImpl_core : e.shutdownImpl.map core = e.core.shutdownImpl := by
  unfold shutdownImpl AdosCore.shutdownImpl
  cases hflag : e.core.shutdownImplFlag with
  | true => rfl
  | false =>
    simp only [Bool.false_eq_true, if_false]
    rw [Call.andThen_map (k := fun c =>
      .returns (c.withConfigurator c.configuratorManager.shutdown)), onCore_core]
    · rfl
    · intro e
      rw [Call.andThen_map (k := .returns) fun _ => rfl, onCore_core, Call.andThen_returns]
      rfl

theorem resume_core : e.resume.map core = e.core.resume := by
  unfold resume
  rw [Call.andThen_map fun _ => onCore_core _, shutdownImpl_core]
  rfl

theorem destroy_core : e.destroy.map core = e.core.destroy := by
  unfold destroy AdosCore.destroy
  rw [← shutdownImpl_core]
  cases e.shutdownImpl with
  | returns e => exact onCore_core _
  | throws e what => exact onCore_core _
  | terminates => rfl

/-! ## What the calls enter -/

/-- The states of `Initialize`. -/
def initializeStates : List AdosCoreState :=
  [.preInit, .preInitConfigurator, .postInitConfigurator, .preInitExecutor, .postInitExecutor,
    .postInit]

/-- The states of `StartImpl`. -/
def startStates : List AdosCoreState :=
  [.preStart, .preStartConfigurator, .postStartConfigurator, .preStartExecutor, .postStartExecutor,
    .postStart]

/-- The states of `ShutdownImpl`. -/
def shutdownStates : List AdosCoreState :=
  [.preShutdown, .preShutdownExecutor, .postShutdownExecutor, .preShutdownConfigurator,
    .postShutdownConfigurator, .postShutdown]

/-- What only `ShutdownImpl` and the end of `Start` write. -/
structure SameProgress (c d : AdosCore Node) : Prop where
  shutdownImplFlag : d.shutdownImplFlag = c.shutdownImplFlag
  futureRetrieved : d.futureRetrieved = c.futureRetrieved

theorem withConfigurator_progress (c : AdosCore Node)
    (k : Call String (ConfiguratorManager Node)) :
    (k.map c.withConfigurator).Post (SameProgress c) (SameProgress c) True :=
  k.post_trivial.map (fun _ _ => ⟨rfl, rfl⟩) fun _ _ => ⟨rfl, rfl⟩

theorem withManager_progress (c : AdosCore Node) (k : Call String (ExecutorManager Node)) :
    (k.map c.withManager).Post (SameProgress c) (SameProgress c) True :=
  k.post_trivial.map (fun _ _ => ⟨rfl, rfl⟩) fun _ _ => ⟨rfl, rfl⟩

theorem initializeExecutors_progress (faults : InitializeFaults Node) (c : AdosCore Node) :
    (c.initializeExecutors faults).Post (SameProgress c) (SameProgress c) True := by
  unfold AdosCore.initializeExecutors
  cases c.configuratorManager.getNodeOptionsByKey "executor" with
  | ok node => exact withManager_progress c _
  | error what => exact ⟨rfl, rfl⟩

/-- From `e` to `t` the states `l` are entered. -/
structure Enters (l : List AdosCoreState) (e t : Entering Node) : Prop where
  entered : t.entered = e.entered ++ l
  progress : SameProgress e.core t.core

variable {t u : Entering Node} {l l' : List AdosCoreState}

theorem Enters.trans (h : Enters l e t) (h' : Enters l' t u) : Enters (l ++ l') e u := by
  refine ⟨?_, h'.progress.1.trans h.progress.1, h'.progress.2.trans h.progress.2⟩
  rw [h'.entered, h.entered, List.append_assoc]

theorem enters_two (e : Entering Node) (state state' : AdosCoreState) :
    Enters [state, state'] e ((e.enterState state).enterState state') := by
  refine ⟨?_, rfl, rfl⟩
  simp [enterState]

/-- A manager is called after two states have been entered. -/
theorem onCore_enters {f : AdosCore Node → Call String (AdosCore Node)} {state state'}
    (h : Enters l e t) (hf : ∀ c, (f c).Post (SameProgress c) (SameProgress c) True) :
    (((t.enterState state).enterState state').onCore f).Post (Enters (l ++ [state, state']) e)
      (Enters (l ++ [state, state']) e) True := by
  have htwo := h.trans (enters_two t state state')
  have hset : ∀ c, SameProgress t.core c →
      Enters (l ++ [state, state']) e { (t.enterState state).enterState state' with core := c } :=
    fun c hc => ⟨htwo.entered, hc.1.trans h.progress.1, hc.2.trans h.progress.2⟩
  exact (hf t.core).map hset hset

/-- `Initialize` throws in one of the managers, whose state is the last one entered. -/
theorem initializeWith_enters {path : String} {load : Except String (RootNode Node)}
    {faults : InitializeFaults Node} :
    (e.initializeWith path load faults).Post (Enters initializeStates e)
      (fun t => ∃ i ∈ [2, 4], Enters (initializeStates.take i) e t) True := by
  have hnil : Enters [] e e := ⟨by simp, rfl, rfl⟩
  refine Call.Post.andThen (P := Enters (initializeStates.take 2) e) ?_ fun t ht => ?_
  · exact (onCore_enters hnil fun c => withConfigurator_progress c _).imp
      (fun t ht => ht) (fun t ht => ⟨2, by simp, ht⟩) id
  refine Call.Post.andThen (P := Enters (initializeStates.take 4) e) ?_ fun t ht => ?_
  · exact (onCore_enters ht (initializeExecutors_progress faults)).imp
      (fun t ht => ht) (fun t ht => ⟨4, by simp, ht⟩) id
  · exact ht.trans (enters_two t _ _)

theorem startImpl_enters {faults : StartFaults} :
    (e.startImpl faults).Post (Enters startStates e)
      (fun t => ∃ i ∈ [2, 4], Enters (startStates.take i) e t) True := by
  have hnil : Enters [] e e := ⟨by simp, rfl, rfl⟩
  refine Call.Post.andThen (P := Enters (startStates.take 2) e) ?_ fun t ht => ?_
  · exact (onCore_enters hnil fun c => withConfigurator_progress c _).imp
      (fun t ht => ht) (fun t ht => ⟨2, by simp, ht⟩) id
  refine Call.Post.andThen (P := Enters (startStates.take 4) e) ?_ fun t ht => ?_
  · exact (onCore_enters ht fun c => withManager_progress c _).imp
      (fun t ht => ht) (fun t ht => ⟨4, by simp, ht⟩) id
  · exact ht.trans (enters_two t _ _)

/-- A first `Start` throws in one of the managers, or enters all its states. -/
theorem start_enters {faults : StartFaults} (hfuture : e.core.futureRetrieved = false) :
    (e.start faults).Post
      (fun t => t.entered = e.entered ++ startStates ∧
        t.core.shutdownImplFlag = e.core.shutdownImplFlag)
      (fun t => ∃ i ∈ [2, 4], Enters (startStates.take i) e t) True := by
  refine startImpl_enters.andThen fun t ht => ?_
  have hnot : t.core.futureRetrieved = false := ht.progress.2.trans hfuture
  simp only [onCore, AdosCore.getFuture, hnot, Bool.false_eq_true, if_false]
  exact ⟨ht.entered, ht.progress.1⟩

/-- A `ShutdownImpl` that returns has entered all its states, if it is the first. -/
theorem shutdownImpl_enters :
    e.shutdownImpl.Post
      (fun t => t.entered = e.entered ++ (if e.core.shutdownImplFlag then [] else shutdownStates) ∧
        t.core.shutdownImplFlag = true) (fun _ => True) True := by
  unfold shutdownImpl
  cases hflag : e.core.shutdownImplFlag with
  | true => exact ⟨by simp, hflag⟩
  | false =>
    simp only [Bool.false_eq_true, if_false]
    refine Call.Post.andThen (P := fun t => t.entered = e.entered ++ shutdownStates.take 2 ∧
      t.core.shutdownImplFlag = true) ?_ fun t ht => ?_
    · simp only [onCore, Call.map_map]
      refine (Call.post_trivial _).map (fun m _ => ?_) fun _ _ => trivial
      exact ⟨by simp [enterState, shutdownStates], rfl⟩
    · obtain ⟨hentered, hset⟩ := ht
      refine ⟨?_, hset⟩
      simp only [enterState, hentered]
      simp [shutdownStates]

/-- What returns on the core returns. -/
theorem exists_returns_of_core {k : Call String (Entering Node)} {c : AdosCore Node}
    (h : k.map core = .returns c) : ∃ t, k = .returns t ∧ t.core = c := by
  cases k with
  | returns t => exact ⟨t, rfl, Call.returns.inj h⟩
  | throws t what => cases h
  | terminates => cases h

/-- The end of `Start`, and the destructor, when nothing is wrong with the registry. -/
theorem resume_enters (h : e.core.Tended) : ∃ t, e.resume = .returns t ∧
    t.entered = e.entered ++ (if e.core.shutdownImplFlag then [] else shutdownStates) ∧
    t.core.shutdownImplFlag = true := by
  have hpost : e.resume.Post
      (fun t => t.entered = e.entered ++ (if e.core.shutdownImplFlag then [] else shutdownStates) ∧
        t.core.shutdownImplFlag = true) (fun _ => True) True :=
    shutdownImpl_enters.andThen fun t ht => ht
  obtain ⟨c, hcall, -⟩ := h.resume_returns
  obtain ⟨t, ht, -⟩ := exists_returns_of_core (resume_core.trans hcall)
  exact ⟨t, ht, hpost.of_returns ht⟩

theorem destroy_enters (h : e.core.Tended) : ∃ t, e.destroy = .returns t ∧
    t.entered = e.entered ++ (if e.core.shutdownImplFlag then [] else shutdownStates) ∧
    t.core.shutdownImplFlag = true := by
  obtain ⟨c, hcall, -⟩ := h.destroy_returns
  obtain ⟨t, ht, -⟩ := exists_returns_of_core (destroy_core.trans hcall)
  obtain ⟨d, himpl, -⟩ := h.shutdownImpl.exists_returns
  obtain ⟨u, hu, -⟩ := exists_returns_of_core (shutdownImpl_core.trans himpl)
  obtain ⟨hentered, hset⟩ := shutdownImpl_enters.of_returns hu
  refine ⟨t, ht, ?_⟩
  simp only [destroy, hu, onCore, AdosCore.destroyMembers] at ht
  split at ht
  · cases ht
  · cases ht
    exact ⟨hentered, hset⟩

/-- What a call has entered, if the program goes on. A call that terminates the program is the last
one, and when the file names the two executors differently there is none. -/
def ofCall : Call String (Entering Node) → List AdosCoreState
  | .returns e => e.entered
  | .throws e _ => e.entered
  | .terminates => []

end Entering

/-! ## The process -/

namespace Process

open Entering

/-- The states that are entered in a step of the process. -/
def enters (s : Process Node) : Act Node → List AdosCoreState
  | .initializeWith load faults =>
    ofCall (Entering.initializeWith s.cfgFilePath load faults ⟨s.core, []⟩)
  | .start faults => ofCall (Entering.start faults ⟨s.core, []⟩)
  | .main =>
    match s.pc with
    | .wait => ofCall (Entering.resume ⟨s.core, []⟩)
    | .leave | .unwind => ofCall (Entering.destroy ⟨s.core, []⟩)
    | _ => []
  | _ => []

/-- The process with the states it enters. -/
def stepEntering : Process Node × List AdosCoreState → Act Node →
    Option (Process Node × List AdosCoreState) :=
  recorded Process.step fun s a l => l ++ s.enters a

/-- The states up to the wait. -/
def startUpStates : List AdosCoreState := initializeStates ++ startStates

/-- What has been entered up to an exception: the last state is one in which a manager is called. -/
def EnteredUntilThrow (l : List AdosCoreState) : Prop :=
  ∃ i ∈ [2, 4, 8, 10], l = startUpStates.take i

/-- What has been entered when `main` is at a point. An exception leaves out what follows, but for
the states of `ShutdownImpl`. -/
def Entered (l : List AdosCoreState) : MainPc → Prop
  | .parse | .usage | .construct | .publish | .initializing => l = []
  | .start => l = initializeStates
  | .wait => l = startUpStates
  | .shutdown | .setValue | .retract | .leave => l = startUpStates ++ shutdownStates
  | .unwind => EnteredUntilThrow l
  | .report => ∃ l', EnteredUntilThrow l' ∧ l = l' ++ shutdownStates
  | .exit code =>
    if code = 0 then l = startUpStates ++ shutdownStates
    else ∃ l', EnteredUntilThrow l' ∧ l = l' ++ shutdownStates
  | .abort => True

variable {s t : Process Node} {a : Act Node} {es : List (Act Node)} {pc : MainPc}
  {l : List AdosCoreState}

/-- How the flags and the states belong to the point in `main`. -/
structure Sequenced (s : Process Node) (l : List AdosCoreState) : Prop where
  entered : Entered l s.pc
  shutdownImplFlag : s.core.shutdownImplFlag = (s.pc.ended || s.pc.destroyed)
  futureRetrieved : s.pc.unbuilt = true ∨ s.pc = .initializing ∨ s.pc = .start →
    s.core.futureRetrieved = false

theorem sequenced_initial : Sequenced ({} : Process Node) [] := ⟨rfl, rfl, fun _ => rfl⟩

/-- A step that does not move `main`, and calls `Shutdown` at most. -/
theorem Sequenced.same (h : Sequenced s l) (hpc : t.pc = s.pc)
    (hflag : t.core.shutdownImplFlag = s.core.shutdownImplFlag)
    (hfuture : t.core.futureRetrieved = s.core.futureRetrieved) : Sequenced t l := by
  refine ⟨?_, ?_, ?_⟩
  · rw [hpc]
    exact h.entered
  · rw [hpc, hflag]
    exact h.shutdownImplFlag
  · rw [hpc, hfuture]
    exact h.futureRetrieved

theorem enteredUntilThrow_initialize {i : ℕ} (hi : i ∈ [2, 4]) :
    EnteredUntilThrow (initializeStates.take i) := by
  simp only [List.mem_cons, List.not_mem_nil, or_false] at hi
  rcases hi with rfl | rfl
  · exact ⟨2, by simp, rfl⟩
  · exact ⟨4, by simp, rfl⟩

theorem enteredUntilThrow_start {i : ℕ} (hi : i ∈ [2, 4]) :
    EnteredUntilThrow (initializeStates ++ startStates.take i) := by
  simp only [List.mem_cons, List.not_mem_nil, or_false] at hi
  rcases hi with rfl | rfl
  · exact ⟨8, by simp, rfl⟩
  · exact ⟨10, by simp, rfl⟩

theorem Sequenced.initializeWith (h : Sequenced s l) (hpc : s.pc = .initializing)
    {load : Except String (RootNode Node)} {faults : InitializeFaults Node}
    (hlives : (s.settle .start (s.core.initializeWith s.cfgFilePath load faults)).pc ≠ .abort) :
    Sequenced (s.settle .start (s.core.initializeWith s.cfgFilePath load faults))
      (l ++ s.enters (.initializeWith load faults)) := by
  have hnil : l = [] := by simpa [Entered, hpc] using h.entered
  have hflag := h.shutdownImplFlag
  have hfuture := h.futureRetrieved (Or.inr (Or.inl hpc))
  have hpost : (Entering.initializeWith s.cfgFilePath load faults ⟨s.core, []⟩).Post _ _ True :=
    initializeWith_enters
  rw [← initializeWith_core (e := ⟨s.core, []⟩)] at hlives ⊢
  subst hnil
  simp only [enters, List.nil_append, hpc, MainPc.ended, MainPc.destroyed, Bool.or_self] at hflag ⊢
  cases hk : Entering.initializeWith s.cfgFilePath load faults ⟨s.core, []⟩ with
  | returns e =>
    rw [hk] at hpost
    exact ⟨hpost.entered, hpost.progress.1.trans hflag, fun _ => hpost.progress.2.trans hfuture⟩
  | throws e what =>
    rw [hk] at hpost
    obtain ⟨i, hi, hent⟩ := hpost
    refine ⟨?_, hent.progress.1.trans hflag, by simp [MainPc.unbuilt, settle, Call.map]⟩
    have hthrow := enteredUntilThrow_initialize hi
    rwa [← List.nil_append (initializeStates.take i), ← hent.entered] at hthrow
  | terminates =>
    rw [hk] at hlives
    exact absurd rfl hlives

/-- `Start` up to its wait: the future has not been retrieved before, or it would throw there. -/
theorem Sequenced.start (h : Sequenced s l) (hpc : s.pc = .start) {faults : StartFaults}
    (hlives : (s.settle .wait (s.core.start faults)).pc ≠ .abort) :
    Sequenced (s.settle .wait (s.core.start faults)) (l ++ s.enters (.start faults)) := by
  have hinit : l = initializeStates := by simpa [Entered, hpc] using h.entered
  have hflag := h.shutdownImplFlag
  have hfuture := h.futureRetrieved (Or.inr (Or.inr hpc))
  have hpost : (Entering.start faults ⟨s.core, []⟩).Post _ _ True := start_enters hfuture
  rw [← start_core (e := ⟨s.core, []⟩)] at hlives ⊢
  subst hinit
  simp only [enters, hpc, MainPc.ended, MainPc.destroyed, Bool.or_self] at hflag ⊢
  cases hk : Entering.start faults ⟨s.core, []⟩ with
  | returns e =>
    rw [hk] at hpost
    refine ⟨?_, hpost.2.trans hflag, by simp [MainPc.unbuilt, settle, Call.map]⟩
    exact congrArg (initializeStates ++ ·) hpost.1
  | throws e what =>
    rw [hk] at hpost
    obtain ⟨i, hi, hent⟩ := hpost
    refine ⟨?_, hent.progress.1.trans hflag, by simp [MainPc.unbuilt, settle, Call.map]⟩
    have hthrow := enteredUntilThrow_start hi
    rwa [← List.nil_append (startStates.take i), ← hent.entered] at hthrow
  | terminates =>
    rw [hk] at hlives
    exact absurd rfl hlives

theorem Sequenced.resume (h : Sequenced s l) (ho : Orderly s) (hpc : s.pc = .wait) :
    Sequenced (s.settle .shutdown s.core.resume) (l ++ s.enters .main) := by
  have hwait : l = startUpStates := by simpa [Entered, hpc] using h.entered
  have hflag := h.shutdownImplFlag
  obtain ⟨e, hk, hent, hset⟩ := resume_enters (e := ⟨s.core, []⟩) ho.tended
  rw [← resume_core (e := ⟨s.core, []⟩)]
  subst hwait
  simp only [hpc, MainPc.ended, MainPc.destroyed, Bool.or_self] at hflag
  simp only [enters, hpc, hk]
  refine ⟨?_, hset, by simp [MainPc.unbuilt, settle, Call.map]⟩
  simp only [hflag, Bool.false_eq_true, if_false, List.nil_append] at hent
  exact congrArg (startUpStates ++ ·) hent

/-- The destructor at the end of `main`, where `ShutdownImpl` has done its work. -/
theorem Sequenced.leave (h : Sequenced s l) (ho : Orderly s) (hpc : s.pc = .leave) :
    Sequenced (s.settle (.exit 0) s.core.destroy) (l ++ s.enters .main) := by
  have hflag := h.shutdownImplFlag
  obtain ⟨e, hk, hent, hset⟩ := destroy_enters (e := ⟨s.core, []⟩) ho.tended
  rw [← destroy_core (e := ⟨s.core, []⟩)]
  simp only [hpc, MainPc.ended, MainPc.destroyed, Bool.true_or] at hflag
  simp only [enters, hpc, hk]
  refine ⟨?_, hset, by simp [MainPc.unbuilt, settle, Call.map]⟩
  simp only [hflag, if_true, List.append_nil] at hent
  simpa [Entered, hpc, settle, Call.map, ofCall, hent] using h.entered

theorem Sequenced.unwind (h : Sequenced s l) (ho : Orderly s) (hpc : s.pc = .unwind) :
    Sequenced (s.settle .report s.core.destroy) (l ++ s.enters .main) := by
  have hflag := h.shutdownImplFlag
  have hthrow := h.entered
  obtain ⟨e, hk, hent, hset⟩ := destroy_enters (e := ⟨s.core, []⟩) ho.tended
  rw [← destroy_core (e := ⟨s.core, []⟩)]
  simp only [hpc, MainPc.ended, MainPc.destroyed, Bool.or_self] at hflag
  simp only [hpc, Entered] at hthrow
  simp only [enters, hpc, hk]
  refine ⟨⟨l, hthrow, ?_⟩, hset, by simp [MainPc.unbuilt, settle, Call.map]⟩
  simp only [hflag, Bool.false_eq_true, if_false, List.nil_append] at hent
  exact congrArg (l ++ ·) hent

/-- A step of `main` without a call. -/
theorem Sequenced.move (h : Sequenced s l) {u : Process Node} (hnil : s.enters .main = [])
    (hentered : Entered l s.pc → Entered l u.pc)
    (hflag : u.core.shutdownImplFlag = (u.pc.ended || u.pc.destroyed))
    (hfuture : u.pc.unbuilt = true ∨ u.pc = .initializing ∨ u.pc = .start →
      u.core.futureRetrieved = false) : Sequenced u (l ++ s.enters .main) := by
  rw [hnil, List.append_nil]
  exact ⟨hentered h.entered, hflag, hfuture⟩

theorem Sequenced.mainStep (h : Sequenced s l) (ho : Orderly s) (hs : Step s .main t) :
    Sequenced t (l ++ s.enters .main) := by
  have hflag := h.shutdownImplFlag
  have hfuture := h.futureRetrieved
  cases hs with
  -- `Start` ends with `ShutdownImpl`, and so does the destructor of a core that has not ended
  | resume hpc _ _ => exact h.resume ho hpc
  | leave hpc _ => exact h.leave ho hpc
  | unwind hpc _ => exact h.unwind ho hpc
  | setValueAgain _ hpc _ | setValue _ hpc _ => exact absurd hpc ho.lives.2
  | construct _ hpc =>
    exact h.move (by simp [enters, hpc]) (by simp [hpc, Entered]) rfl fun _ => rfl
  | publish _ hpc =>
    rw [hpc] at hflag
    exact h.move (by simp [enters, hpc]) (by simp [hpc, Entered]) hflag
      fun _ => hfuture (by simp [hpc, MainPc.unbuilt])
  | shutdownAgain _ hpc _ =>
    rw [hpc] at hflag
    exact h.move (by simp [enters, hpc]) (by simp [hpc, Entered]) hflag (by simp [MainPc.unbuilt])
  | shutdown _ hpc _ =>
    rw [hpc] at hflag
    exact h.move (by simp [enters, hpc]) (by simp [hpc, Entered]) hflag (by simp [MainPc.unbuilt])
  | retract _ hpc =>
    rw [hpc] at hflag
    exact h.move (by simp [enters, hpc]) (by simp [hpc, Entered]) hflag (by simp [MainPc.unbuilt])
  | report _ hpc =>
    rw [hpc] at hflag
    refine h.move (by simp [enters, hpc]) (fun hent => ?_) hflag (by simp [MainPc.unbuilt])
    rw [hpc] at hent
    simpa [Entered] using hent

theorem Sequenced.step (h : Sequenced s l) (ho : Orderly s) (ht : Orderly t) (hs : Step s a t) :
    Sequenced t (l ++ s.enters a) := by
  have hflag := h.shutdownImplFlag
  have hfuture := h.futureRetrieved
  cases a with
  | main => exact h.mainStep ho hs
  | initializeWith load faults =>
    cases hs with
    | initializeWith _ hpc => exact h.initializeWith hpc ht.lives.1
  | start faults =>
    cases hs with
    | start _ hpc => exact h.start hpc ht.lives.1
  | parse args =>
    simp only [enters, List.append_nil]
    cases hs with
    | parse hpc _ =>
      rw [hpc] at hflag
      refine ⟨?_, hflag, fun _ => hfuture (by simp [hpc, MainPc.unbuilt])⟩
      simpa [hpc, Entered] using h.entered
    | usage hpc _ =>
      rw [hpc] at hflag
      refine ⟨?_, hflag, fun _ => hfuture (by simp [hpc, MainPc.unbuilt])⟩
      simpa [hpc, Entered] using h.entered
  | deliver sig thread =>
    simp only [enters, List.append_nil]
    cases hs with
    | deliver _ _ _ => exact h.same rfl rfl rfl
  | handler i =>
    simp only [enters, List.append_nil]
    cases hs with
    | raises _ _ _ => exact h
    | setsAgain _ _ _ _ => exact absurd rfl ht.lives.1
    | tests _ _ _ | sees _ _ _ _ _ | exchanges _ _ _ _ _ | sets _ _ _ _ =>
      exact h.same rfl rfl rfl

/-! ## Runs -/

theorem sequenced_run (hr : run stepEntering ({}, []) es = some (s, l))
    (hnames : ∀ a ∈ es, a.DistinctNames) : Orderly s ∧ Sequenced s l := by
  have hinv : ∀ (p : Process Node × List AdosCoreState) a q,
      (Orderly p.1 ∧ Sequenced p.1 p.2) → a ∈ es → stepEntering p a = some q →
        Orderly q.1 ∧ Sequenced q.1 q.2 := by
    rintro p a q ⟨ho, h⟩ ha hstep
    obtain ⟨hs, hnote⟩ := recorded_eq_some.mp hstep
    have hs := step_cases hs
    have ht := ho.step (hnames a ha) hs
    rw [← hnote]
    exact ⟨ht, h.step ho ht hs⟩
  exact run_invariant_of_mem (P := fun p : Process Node × List AdosCoreState =>
    Orderly p.1 ∧ Sequenced p.1 p.2) hinv ⟨orderly_initial, sequenced_initial⟩ hr

/-- The states of a whole life are in the order of the enumeration. -/
theorem sorted_states :
    (startUpStates ++ shutdownStates).Pairwise fun state state' => state.num < state'.num := by
  decide

theorem sublist_of_entered (h : Entered l pc) (hpc : pc ≠ .abort) :
    l.Sublist (startUpStates ++ shutdownStates) := by
  have hstart : ∀ l : List AdosCoreState, l.Sublist startUpStates →
      l.Sublist (startUpStates ++ shutdownStates) :=
    fun l hl => hl.trans (List.sublist_append_left _ _)
  have hthrow : ∀ l, EnteredUntilThrow l → l.Sublist startUpStates := by
    rintro l ⟨i, -, rfl⟩
    exact List.take_sublist i _
  have hfailed : (∃ l', EnteredUntilThrow l' ∧ l = l' ++ shutdownStates) →
      l.Sublist (startUpStates ++ shutdownStates) := by
    rintro ⟨l', hl, rfl⟩
    exact (hthrow l' hl).append_right _
  cases pc with
  | parse | usage | construct | publish | initializing =>
    obtain rfl : l = [] := h
    exact List.nil_sublist _
  | start =>
    obtain rfl : l = initializeStates := h
    exact hstart _ (List.sublist_append_left _ _)
  | wait =>
    obtain rfl : l = startUpStates := h
    exact hstart _ (List.Sublist.refl _)
  | shutdown | setValue | retract | leave =>
    obtain rfl : l = startUpStates ++ shutdownStates := h
    exact List.Sublist.refl _
  | unwind => exact hstart _ (hthrow l h)
  | report => exact hfailed h
  | exit code =>
    simp only [Entered] at h
    split at h
    · rw [h]
    · exact hfailed h
  | abort => exact absurd rfl hpc

/-- **The states of the core are entered in their order, none of them twice**, in every run whose
file names the two executors differently, whatever the calls on the core throw: when `main` has
returned `0` it has entered all that its calls can enter, and when it has returned anything else,
those up to a state in which a manager was called, and then the states of `ShutdownImpl`. -/
theorem states_entered (hr : run Process.step {} es = some s)
    (hnames : ∀ a ∈ es, a.DistinctNames) :
    ∃ l, run stepEntering ({}, []) es = some (s, l) ∧ Entered l s.pc ∧
      l.Pairwise fun state state' => state.num < state'.num := by
  obtain ⟨l, hrec⟩ : ∃ l, run stepEntering ({}, []) es = some (s, l) := exists_run_recorded [] hr
  obtain ⟨ho, h⟩ := sequenced_run hrec hnames
  exact ⟨l, hrec, h.entered, sorted_states.sublist (sublist_of_entered h.entered ho.lives.1)⟩

/-- `main` with a file that cannot be loaded. -/
def badFile : List (Act Unit) :=
  [.parse ⟨2, false, false, "cfg.yaml"⟩, .main, .main,
    .initializeWith (.error "bad file") fun _ _ _ => none, .main, .main]

theorem distinctNames_badFile : ∀ a ∈ badFile, a.DistinctNames := by
  intro a ha
  simp only [badFile, List.mem_cons, List.not_mem_nil, or_false] at ha
  rcases ha with rfl | rfl | rfl | rfl | rfl | rfl
  · trivial
  · trivial
  · trivial
  · exact namesDiffer_error
  · trivial
  · trivial

/-- The configurator throws, and the managers are shut down. -/
theorem states_entered_bad_file : ∃ s l, run stepEntering ({}, []) badFile = some (s, l) ∧
    s.pc = .exit (-1) ∧ l = [.preInit, .preInitConfigurator] ++ shutdownStates ∧
    l.Pairwise fun state state' => state.num < state'.num := by
  have hrun : (run Process.step {} badFile).isSome = true := by decide +kernel
  have hlist : ((run stepEntering ({}, []) badFile).map fun p => (p.1.pc, p.2)) =
      some (.exit (-1), [.preInit, .preInitConfigurator] ++ shutdownStates) := by
    decide +kernel
  obtain ⟨s, hs⟩ := Option.isSome_iff_exists.mp hrun
  obtain ⟨l, hrec, -, hsorted⟩ := states_entered hs distinctNames_badFile
  rw [hrec] at hlist
  obtain ⟨hpc, hl⟩ := Prod.mk.inj (Option.some_inj.mp hlist)
  exact ⟨s, l, hrec, hpc, hl, hsorted⟩

end Process

end Ados.Core
