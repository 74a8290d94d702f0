import Ados.Core.CleanUp

/-!
# The process

`main` with its `SignalHandler`: the flags, the core in its try block, and the signals `SIGINT` and
`SIGTERM`, which may come at any point and on any thread of the process. A handler interrupts the
thread it runs on, so this thread takes no step of its own before the handler has returned; the same
signal is blocked on the thread meanwhile, the other one may interrupt the handler. A `raise` in the
handler makes the signal pending for the thread, which handles it anew as soon as the handler has
returned.

The calls of `main` on the core are one step each. `SignalHandler` touches `shutdown_flag_` and
`shutdown_promise_` only, and `Initialize`, `Start` and `ShutdownImpl` neither read nor write them
(but for the wait), so it does not matter at which point inside a call a handler runs. When
`ShutdownImpl` has joined the threads of the executors, their handlers have returned.

A run is what happens from the installation of the handlers until `main` returns, with the flags
read before. Left out are signals before that, whose default action ends the program, signals after
`main` has returned, and the texts it prints. A run ends before a handler uses a core that has been
destroyed. The constructor of the core logs a line, the first of the process, and a run is one in
which it does not throw; then none after it does, the logger having its time zone.

## Main definitions

* `CommandLine`, `parseCommandLineFlags`: the flags
* `Signal`, `Thread`, `Handler`, `MainPc`: where the handlers and `main` are
* `Process`, `Process.step`, `Process.Step`: the process, its steps, and what each can do

## Main results

* `AdosCore.initializeWith_shutdown`, `AdosCore.startImpl_shutdown`,
  `AdosCore.shutdownImpl_shutdown`: the calls commute with `Shutdown`
* `Process.step_cases`: every step is one of those
-/

namespace Ados.Core

variable {Node : Type}

/-! ## `Shutdown` beside the other calls -/

namespace AdosCore

variable {c : AdosCore Node}

theorem map_withManager_shutdown (k : Call String (ExecutorManager Node)) :
    k.map c.shutdown.withManager = (k.map c.withManager).map shutdown := by
  rw [Call.map_map]
  rfl

theorem initializeExecutors_shutdown (c : AdosCore Node) {faults : InitializeFaults Node} :
    c.shutdown.initializeExecutors faults = (c.initializeExecutors faults).map shutdown := by
  unfold initializeExecutors
  have hnode : c.shutdown.configuratorManager.getNodeOptionsByKey "executor" =
      c.configuratorManager.getNodeOptionsByKey "executor" := rfl
  rw [hnode]
  cases c.configuratorManager.getNodeOptionsByKey "executor" with
  | error what => rfl
  | ok node => exact map_withManager_shutdown _

theorem initializeWith_shutdown {path : String} {load : Except String (RootNode Node)}
    {faults : InitializeFaults Node} :
    c.shutdown.initializeWith path load faults =
      (c.initializeWith path load faults).map shutdown := by
  unfold AdosCore.initializeWith
  rw [← Call.map_andThen fun c => initializeExecutors_shutdown c, Call.map_map]
  rfl

theorem startImpl_shutdown {faults : StartFaults} :
    c.shutdown.startImpl faults = (c.startImpl faults).map shutdown := by
  have hmanager : ∀ c : AdosCore Node,
      (c.shutdown.executorManager.start faults).map c.shutdown.withManager =
        ((c.executorManager.start faults).map c.withManager).map shutdown :=
    fun c => map_withManager_shutdown _
  unfold startImpl
  rw [← Call.map_andThen hmanager, Call.map_map]
  rfl

theorem shutdownImpl_shutdown : c.shutdown.shutdownImpl = c.shutdownImpl.map shutdown := by
  unfold shutdownImpl
  cases hflag : c.shutdownImplFlag with
  | true => simp [shutdown, hflag, Call.map]
  | false =>
    simp only [shutdown, hflag, Bool.false_eq_true, if_false]
    rw [← Call.map_andThen fun c => rfl, Call.map_map]
    rfl

end AdosCore

/-! ## The process -/

/-- What the flags of the command line say, and the number of its words. -/
structure CommandLine where
  argc : ℕ
  h : Bool := false
  v : Bool := false
  cfgFilePath : String := ""
  deriving DecidableEq, Repr

/-- `ParseCommandLineFlags`: whether `main` goes on, and does not print usage or version and exit
with `0`. -/
def parseCommandLineFlags (args : CommandLine) : Bool :=
  if args.argc = 1 then false else if args.h then false else !args.v

/-- The signals that `main` installs `SignalHandler` for. -/
inductive Signal where
  | sigint
  | sigterm
  deriving DecidableEq, Repr

inductive Thread where
  | main
  /-- the thread of the executor of a name -/
  | executor (name : String)
  deriving DecidableEq, Repr

/-- Where a call of `SignalHandler` is. -/
inductive HandlerPc where
  /-- before the test of `global_core_ptr` -/
  | test
  /-- in `Shutdown`, before the exchange of `shutdown_flag_` -/
  | exchange
  /-- in `Shutdown`, before `shutdown_promise_.set_value()` -/
  | setValue
  deriving DecidableEq, Repr

structure Handler where
  thread : Thread
  sig : Signal
  pc : HandlerPc := .test
  deriving DecidableEq, Repr

/-- Where `main` is. -/
inductive MainPc where
  | parse
  /-- the handlers are installed, the core is not yet constructed -/
  | construct
  /-- before `global_core_ptr = &core` -/
  | publish
  | initializing
  | start
  /-- in `Start`, at the wait for `shutdown_promise_` -/
  | wait
  | shutdown
  /-- in `Shutdown`, before `shutdown_promise_.set_value()` -/
  | setValue
  /-- before `global_core_ptr = nullptr` -/
  | retract
  /-- at the end of the try block, before the core is destroyed -/
  | leave
  /-- an exception leaves the try block, the core is not yet destroyed -/
  | unwind
  /-- in the catch block -/
  | report
  /-- `main` has returned -/
  | exit (code : ℤ)
  /-- `exit(0)` has been called by `ParseCommandLineFlags` -/
  | usage
  /-- the program has been terminated -/
  | abort
  deriving DecidableEq, Repr

/-- `SignalHandler` is installed, and `main` has not returned. -/
def MainPc.handlesSignals : MainPc → Bool
  | .parse | .exit _ | .usage | .abort => false
  | _ => true

/-- The process: `FLAGS_cfg_file_path`, the core, whether `global_core_ptr` points to it (it is null
otherwise), whether `shutdown_promise_` has its value; where `main` is, and the calls of
`SignalHandler`, the last one first. -/
structure Process (Node : Type) where
  cfgFilePath : String := ""
  core : AdosCore Node := {}
  globalCorePtr : Bool := false
  promiseSet : Bool := false
  pc : MainPc := .parse
  handlers : List Handler := []

namespace Process

/-- The step is one of `main` without a call on the core that can fail from outside, or a call with
what it meets; a signal comes on a thread; a handler goes on. -/
inductive Act (Node : Type) where
  | parse (args : CommandLine)
  | main
  | initializeWith (load : Except String (RootNode Node)) (faults : InitializeFaults Node)
  | start (faults : StartFaults)
  | deliver (sig : Signal) (thread : Thread)
  | handler (i : ℕ)

/-- The thread exists. -/
def hasThread (s : Process Node) : Thread → Bool
  | .main => true
  | .executor name =>
    match s.core.executorManager.executorMap.lookup name with
    | some x => x.thread
    | none => false

/-- A handler runs on the main thread. -/
def interrupted (s : Process Node) : Bool := s.handlers.any fun h => h.thread = .main

/-- `main` after a call on the core. -/
def settle (s : Process Node) (next : MainPc) : Call String (AdosCore Node) → Process Node
  | .returns c => { s with core := c, pc := next }
  | .throws c _ => { s with core := c, pc := .unwind }
  | .terminates => { s with pc := .abort }

/-- The next step of `main`, where nothing from outside decides it. The destructor of the core and
the end of `Start` join the threads of the executors. -/
def mainStep (s : Process Node) : Option (Process Node) :=
  match s.pc with
  | .construct => some { s with core := {}, pc := .publish }
  | .publish => some { s with globalCorePtr := true, pc := .initializing }
  | .wait =>
    if s.promiseSet ∧ s.handlers = [] then some (s.settle .shutdown s.core.resume) else none
  | .shutdown =>
    if s.core.shutdownFlag then some { s with pc := .retract }
    else some { s with core := s.core.shutdown, pc := .setValue }
  | .setValue =>
    -- a second value throws
    if s.promiseSet then some { s with pc := .unwind }
    else some { s with promiseSet := true, pc := .retract }
  | .retract => some { s with globalCorePtr := false, pc := .leave }
  | .leave => if s.handlers = [] then some (s.settle (.exit 0) s.core.destroy) else none
  | .unwind => if s.handlers = [] then some (s.settle .report s.core.destroy) else none
  | .report => some { s with pc := .exit (-1) }
  | _ => none

/-- The next step of a handler, which no other handler interrupts. -/
def handlerStep (s : Process Node) (i : ℕ) : Option (Process Node) :=
  match s.handlers[i]? with
  | none => none
  | some h =>
    if (s.handlers.take i).any fun k => k.thread = h.thread then none
    else
      match h.pc with
      | .test =>
        if s.globalCorePtr then
          some { s with handlers := s.handlers.set i { h with pc := .exchange } }
        -- the signal raised is handled when the handler has returned
        else some s
      | .exchange =>
        if s.globalCorePtr = false ∨ s.core.destroyed then none
        else if s.core.shutdownFlag then some { s with handlers := s.handlers.eraseIdx i }
        else some { s with
          core := s.core.shutdown
          handlers := s.handlers.set i { h with pc := .setValue } }
      | .setValue =>
        if s.core.destroyed then none
        -- a second value throws, out of the handler
        else if s.promiseSet then some { s with pc := .abort }
        else some { s with promiseSet := true, handlers := s.handlers.eraseIdx i }

/-- One step of `main` or of a handler, or the delivery of a signal. -/
def step (s : Process Node) : Act Node → Option (Process Node)
  | .parse args =>
    if s.pc = .parse then
      if parseCommandLineFlags args then
        some { s with cfgFilePath := args.cfgFilePath, pc := .construct }
      else some { s with pc := .usage }
    else none
  | .main => if s.interrupted then none else s.mainStep
  | .initializeWith load faults =>
    if s.pc = .initializing ∧ s.interrupted = false then
      some (s.settle .start (s.core.initializeWith s.cfgFilePath load faults))
    else none
  | .start faults =>
    if s.pc = .start ∧ s.interrupted = false then some (s.settle .wait (s.core.start faults))
    else none
  | .deliver sig thread =>
    if s.pc.handlesSignals ∧ s.hasThread thread ∧
        (s.handlers.any fun h => h.thread = thread ∧ h.sig = sig) = false then
      some { s with handlers := ⟨thread, sig, .test⟩ :: s.handlers }
    else none
  | .handler i => if s.pc.handlesSignals then s.handlerStep i else none

/-! ## What one step can do -/

/-- The call `i` of the handler is `h`, and no other interrupts it. -/
structure Runs (s : Process Node) (i : ℕ) (h : Handler) : Prop where
  eq : s.handlers[i]? = some h
  top : ((s.handlers.take i).any fun k => k.thread = h.thread) = false
  alive : s.pc.handlesSignals = true

/-- What one step can do. -/
inductive Step (s : Process Node) : Act Node → Process Node → Prop
  | parse {args} : s.pc = .parse → parseCommandLineFlags args = true →
      Step s (.parse args) { s with cfgFilePath := args.cfgFilePath, pc := .construct }
  | usage {args} : s.pc = .parse → parseCommandLineFlags args = false →
      Step s (.parse args) { s with pc := .usage }
  | construct : s.interrupted = false → s.pc = .construct →
      Step s .main { s with core := {}, pc := .publish }
  | publish : s.interrupted = false → s.pc = .publish →
      Step s .main { s with globalCorePtr := true, pc := .initializing }
  | initializeWith {load faults} : s.interrupted = false → s.pc = .initializing →
      Step s (.initializeWith load faults)
        (s.settle .start (s.core.initializeWith s.cfgFilePath load faults))
  | start {faults} : s.interrupted = false → s.pc = .start →
      Step s (.start faults) (s.settle .wait (s.core.start faults))
  | resume : s.pc = .wait → s.promiseSet = true → s.handlers = [] →
      Step s .main (s.settle .shutdown s.core.resume)
  | shutdownAgain : s.interrupted = false → s.pc = .shutdown → s.core.shutdownFlag = true →
      Step s .main { s with pc := .retract }
  | shutdown : s.interrupted = false → s.pc = .shutdown → s.core.shutdownFlag = false →
      Step s .main { s with core := s.core.shutdown, pc := .setValue }
  | setValueAgain : s.interrupted = false → s.pc = .setValue → s.promiseSet = true →
      Step s .main { s with pc := .unwind }
  | setValue : s.interrupted = false → s.pc = .setValue → s.promiseSet = false →
      Step s .main { s with promiseSet := true, pc := .retract }
  | retract : s.interrupted = false → s.pc = .retract →
      Step s .main { s with globalCorePtr := false, pc := .leave }
  | leave : s.pc = .leave → s.handlers = [] → Step s .main (s.settle (.exit 0) s.core.destroy)
  | unwind : s.pc = .unwind → s.handlers = [] → Step s .main (s.settle .report s.core.destroy)
  | report : s.interrupted = false → s.pc = .report → Step s .main { s with pc := .exit (-1) }
  | deliver {sig thread} : s.pc.handlesSignals = true → s.hasThread thread = true →
      (s.handlers.any fun h => h.thread = thread ∧ h.sig = sig) = false →
      Step s (.deliver sig thread) { s with handlers := ⟨thread, sig, .test⟩ :: s.handlers }
  | raises {i h} : s.Runs i h → h.pc = .test → s.globalCorePtr = false → Step s (.handler i) s
  | tests {i h} : s.Runs i h → h.pc = .test → s.globalCorePtr = true →
      Step s (.handler i) { s with handlers := s.handlers.set i { h with pc := .exchange } }
  | sees {i h} : s.Runs i h → h.pc = .exchange → s.globalCorePtr = true →
      s.core.destroyed = false → s.core.shutdownFlag = true →
      Step s (.handler i) { s with handlers := s.handlers.eraseIdx i }
  | exchanges {i h} : s.Runs i h → h.pc = .exchange → s.globalCorePtr = true →
      s.core.destroyed = false → s.core.shutdownFlag = false →
      Step s (.handler i) { s with
        core := s.core.shutdown
        handlers := s.handlers.set i { h with pc := .setValue } }
  | setsAgain {i h} : s.Runs i h → h.pc = .setValue → s.core.destroyed = false →
      s.promiseSet = true → Step s (.handler i) { s with pc := .abort }
  | sets {i h} : s.Runs i h → h.pc = .setValue → s.core.destroyed = false →
      s.promiseSet = false →
      Step s (.handler i) { s with promiseSet := true, handlers := s.handlers.eraseIdx i }

variable {s t : Process Node} {a : Act Node}

theorem interrupted_of_nil (h : s.handlers = []) : s.interrupted = false := by
  simp [interrupted, h]

theorem mainStep_cases (hint : s.interrupted = false) (h : s.mainStep = some t) :
    Step s .main t := by
  unfold mainStep at h
  split at h
  · next hpc =>
    cases h
    exact .construct hint hpc
  · next hpc =>
    cases h
    exact .publish hint hpc
  · next hpc =>
    split at h
    · next hs =>
      cases h
      exact .resume hpc hs.1 hs.2
    · cases h
  · next hpc =>
    split at h <;> cases h
    · exact .shutdownAgain hint hpc ‹_›
    · exact .shutdown hint hpc (eq_false_of_ne_true ‹_›)
  · next hpc =>
    split at h <;> cases h
    · exact .setValueAgain hint hpc ‹_›
    · exact .setValue hint hpc (eq_false_of_ne_true ‹_›)
  · next hpc =>
    cases h
    exact .retract hint hpc
  · next hpc =>
    split at h
    · cases h
      exact .leave hpc ‹_›
    · cases h
  · next hpc =>
    split at h
    · cases h
      exact .unwind hpc ‹_›
    · cases h
  · next hpc =>
    cases h
    exact .report hint hpc
  · cases h

theorem handlerStep_cases {i : ℕ} (halive : s.pc.handlesSignals = true)
    (h : s.handlerStep i = some t) : Step s (.handler i) t := by
  unfold handlerStep at h
  split at h
  · cases h
  · next k hk =>
    split at h
    · cases h
    · next htop =>
      have hruns : s.Runs i k := ⟨hk, by simpa using htop, halive⟩
      split at h
      · next hpc =>
        split at h <;> cases h
        · exact .tests hruns hpc ‹_›
        · exact .raises hruns hpc (eq_false_of_ne_true ‹_›)
      · next hpc =>
        split at h
        · cases h
        · next hlive =>
          rw [not_or, Bool.not_eq_false, Bool.not_eq_true] at hlive
          split at h <;> cases h
          · exact .sees hruns hpc hlive.1 hlive.2 ‹_›
          · exact .exchanges hruns hpc hlive.1 hlive.2 (eq_false_of_ne_true ‹_›)
      · next hpc =>
        split at h
        · cases h
        · next hlive =>
          split at h <;> cases h
          · exact .setsAgain hruns hpc (by simpa using hlive) ‹_›
          · exact .sets hruns hpc (by simpa using hlive) (eq_false_of_ne_true ‹_›)

theorem step_cases (h : step s a = some t) : Step s a t := by
  cases a with
  | parse args =>
    simp only [step] at h
    split at h
    · next hpc =>
      split at h <;> cases h
      · exact .parse hpc ‹_›
      · exact .usage hpc (eq_false_of_ne_true ‹_›)
    · cases h
  | main =>
    simp only [step] at h
    split at h
    · cases h
    · exact mainStep_cases (eq_false_of_ne_true ‹_›) h
  | initializeWith load faults =>
    simp only [step] at h
    split at h
    · next hs =>
      cases h
      exact .initializeWith hs.2 hs.1
    · cases h
  | start faults =>
    simp only [step] at h
    split at h
    · next hs =>
      cases h
      exact .start hs.2 hs.1
    · cases h
  | deliver sig thread =>
    simp only [step] at h
    split at h
    · next hs =>
      cases h
      exact .deliver hs.1 hs.2.1 hs.2.2
    · cases h
  | handler i =>
    simp only [step] at h
    split at h
    · exact handlerStep_cases ‹_› h
    · cases h

end Process

end Ados.Core
