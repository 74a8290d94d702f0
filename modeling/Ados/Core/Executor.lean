import Ados.Lib.Call

/-!
# Executors, as their manager sees them

The lifecycle of an `ExecutorBase`: its state and whether it holds a thread. The three classes write
the new state before they test the old one. A `MainThreadExecutor` has no thread, a
`GuardThreadExecutor` creates its thread in `Initialize` and a `TimeWheelExecutor` creates its in
`Start`. An executor destroyed while it holds a thread terminates the program: the destructors are
the default ones, and that of a joinable `std::thread` calls `std::terminate`.

Logging is left out; it is assumed not to throw. `Initialize` and `Start` can throw for other
reasons than the state they find, which the model takes from outside: the options may not decode,
and a thread may not be created.

## Main definitions

* `State`, `ExecutorType`, `Handle`, `Executor`: the lifecycle states, the classes, an executor
* `Executor.initializeWith`, `Executor.start`, `Executor.shutdown`, `Executor.destroyed`

## Main results

* `Executor.initializeWith_post`, `Executor.start_post`: how these calls can end
* `Executor.Sound.shutdown_thread`: after `Shutdown` there is no thread
-/

namespace Ados.Core

/-- The lifecycle states `kPreInit`, `kInit`, `kStart` and `kShutdown`, which the managers and the
executors each declare anew. -/
inductive State where
  | preInit
  | init
  | start
  | shutdown
  deriving DecidableEq, Repr

/-- The classes derived from `ExecutorBase`. -/
inductive ExecutorType where
  | mainThread
  | guardThread
  | timeWheel
  deriving DecidableEq, Repr

/-- Which executor it is: the number of executors initialized before it, its class and `name_`. -/
structure Handle where
  id : ℕ
  type : ExecutorType
  name : String
  deriving DecidableEq, Repr

/-- An executor; `thread` tells whether it holds a thread that has not been joined. -/
structure Executor extends Handle where
  state : State := .preInit
  thread : Bool := false
  deriving DecidableEq, Repr

namespace Executor

/-- `Initialize` of the class `cls`. What it throws beside its own check comes before its thread is
created, or instead of it. -/
def initializeOnce (cls : String) (createsThread : Bool) (name : String) (fault : Option String)
    (x : Executor) : Call String Executor :=
  if x.state = .preInit then
    match fault with
    | none => .returns { x with name := name, state := .init, thread := createsThread }
    | some what => .throws { x with name := name, state := .init } what
  else .throws { x with state := .init } (cls ++ " can only be initialized once.")

/-- `Start` of the class `cls`. A second thread is assigned over the first, which is destroyed. -/
def startOnce (cls : String) (createsThread : Bool) (fault : Option String) (x : Executor) :
    Call String Executor :=
  if x.state = .init then
    match fault with
    | some what => .throws { x with state := .start } what
    | none =>
      if createsThread then
        if x.thread then .terminates else .returns { x with state := .start, thread := true }
      else .returns { x with state := .start }
  else .throws { x with state := .start } (cls ++ " can only run when state is 'Init'.")

/-- `Shutdown`, which joins the thread if there is one; the same in the three classes. -/
def shutdown (x : Executor) : Executor :=
  if x.state = .shutdown then x else { x with state := .shutdown, thread := false }

def MainThreadExecutor.initializeWith := initializeOnce "MainThreadExecutor" false
def GuardThreadExecutor.initializeWith := initializeOnce "GuardThreadExecutor" true
def TimeWheelExecutor.initializeWith := initializeOnce "TimeWheelExecutor" false

def MainThreadExecutor.start := startOnce "MainThreadExecutor" false
def GuardThreadExecutor.start := startOnce "GuardThreadExecutor" false
def TimeWheelExecutor.start := startOnce "TimeWheelExecutor" true

/-- The virtual call of `Initialize`. -/
def initializeWith (name : String) (fault : Option String) (x : Executor) : Call String Executor :=
  match x.type with
  | .mainThread => MainThreadExecutor.initializeWith name fault x
  | .guardThread => GuardThreadExecutor.initializeWith name fault x
  | .timeWheel => TimeWheelExecutor.initializeWith name fault x

/-- The virtual call of `Start`. -/
def start (fault : Option String) (x : Executor) : Call String Executor :=
  match x.type with
  | .mainThread => MainThreadExecutor.start fault x
  | .guardThread => GuardThreadExecutor.start fault x
  | .timeWheel => TimeWheelExecutor.start fault x

/-- The executor is destroyed, and the code goes on as in `c`. -/
def destroyed {σ : Type*} (x : Executor) (c : Call String σ) : Call String σ :=
  if x.thread then .terminates else c

/-! ## How the calls end -/

variable {x y : Executor} {name : String} {fault : Option String}

@[simp] theorem shutdown_toHandle : x.shutdown.toHandle = x.toHandle := by
  unfold shutdown
  split <;> rfl

@[simp] theorem shutdown_state : x.shutdown.state = .shutdown := by
  unfold shutdown
  split
  · assumption
  · rfl

/-- An executor that has been shut down has no thread, nor has a time wheel executor that has been
initialized only. -/
structure Sound (x : Executor) : Prop where
  joined : x.state = .shutdown → x.thread = false
  idle : x.type = .timeWheel → x.state = .init → x.thread = false

theorem Sound.shutdown_thread (h : Sound x) : x.shutdown.thread = false := by
  unfold shutdown
  split
  · exact h.joined ‹_›
  · rfl

theorem Sound.shutdown (h : Sound x) : Sound x.shutdown :=
  ⟨fun _ => h.shutdown_thread, fun _ _ => h.shutdown_thread⟩

theorem sound_of_start (h : x.state = .start) : Sound x :=
  ⟨fun hs => by simp [h] at hs, fun _ hs => by simp [h] at hs⟩

theorem initializeOnce_post {cls : String} {createsThread : Bool} (hx : x.state = .preInit)
    (hthread : x.thread = false) :
    (initializeOnce cls createsThread name fault x).Post
      (fun y => y = { x with name := name, state := .init, thread := createsThread } ∧
        fault = none)
      (fun y => y.thread = false ∧ fault ≠ none) False := by
  unfold initializeOnce
  rw [if_pos hx]
  cases fault with
  | none => exact ⟨rfl, rfl⟩
  | some what => exact ⟨hthread, by simp⟩

/-- A new executor is initialized under its name unless something else is thrown; the guard thread
executor has its thread then. -/
theorem initializeWith_post (hx : x.state = .preInit) (hthread : x.thread = false) :
    (x.initializeWith name fault).Post
      (fun y => y = { x with
          name := name, state := .init, thread := decide (x.type = .guardThread) } ∧ fault = none)
      (fun y => y.thread = false ∧ fault ≠ none) False := by
  cases htype : x.type with
  | mainThread => simpa [initializeWith, htype, MainThreadExecutor.initializeWith] using
      initializeOnce_post hx hthread
  | guardThread => simpa [initializeWith, htype, GuardThreadExecutor.initializeWith] using
      initializeOnce_post hx hthread
  | timeWheel => simpa [initializeWith, htype, TimeWheelExecutor.initializeWith] using
      initializeOnce_post hx hthread

theorem startOnce_post {cls : String} {createsThread : Bool}
    (hthread : createsThread → x.state = .init → x.thread = false) :
    (startOnce cls createsThread fault x).Post
      (fun y => y.toHandle = x.toHandle ∧ y.state = .start ∧ x.state = .init)
      (fun y => y.toHandle = x.toHandle ∧ y.state = .start) False := by
  unfold startOnce
  by_cases hx : x.state = .init
  · rw [if_pos hx]
    cases fault with
    | some what => exact ⟨rfl, rfl⟩
    | none =>
      cases createsThread with
      | false => exact ⟨rfl, rfl, hx⟩
      | true =>
        simp only [if_true, hthread rfl hx]
        exact ⟨rfl, rfl, hx⟩
  · rw [if_neg hx]
    exact ⟨rfl, rfl⟩

/-- `Start` leaves the executor in `kStart` in any case, and returns only if it was in `kInit`. -/
theorem start_post (h : Sound x) :
    (x.start fault).Post
      (fun y => y.toHandle = x.toHandle ∧ y.state = .start ∧ x.state = .init)
      (fun y => y.toHandle = x.toHandle ∧ y.state = .start) False := by
  unfold start
  cases htype : x.type with
  | mainThread => exact startOnce_post (by simp)
  | guardThread => exact startOnce_post (by simp)
  | timeWheel => exact startOnce_post (fun _ => h.idle htype)

end Executor

end Ados.Core
