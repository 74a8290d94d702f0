import Ados.Core.Executor
import Ados.GuardThread.Machine
import Ados.TimeWheel.Filing
import Ados.TimeWheel.TimerLoop

/-!
# The executors behind their manager

What the manager sees of an executor is what the models of the guard thread executor and of the time
wheel executor show of their state and their thread: `Initialize` and `Start` of these models are
the calls that the manager makes, and a `Shutdown` that has run through all its steps, whatever the
threads did in between, is the one step that the manager takes it for.

## Main definitions

* `Executor.ofGuardThread`, `Executor.ofTimeWheel`: an executor as its manager sees it

## Main results

* `Executor.ofGuardThread_initializeWith`, `Executor.ofGuardThread_start`,
  `Executor.ofGuardThread_shutdown`
* `Executor.ofTimeWheel_initial`, `Executor.ofTimeWheel_start`, `Executor.ofTimeWheel_shutdown`
-/

namespace Ados.Core

open Transition

/-- The same state of a `GuardThreadExecutor`. -/
def State.ofGuardThread : GuardThread.State → State
  | .preInit => .preInit
  | .init => .init
  | .start => .start
  | .shutdown => .shutdown

/-- The same state of a `TimeWheelExecutor`. -/
def State.ofTimeWheel : TimeWheel.State → State
  | .preInit => .preInit
  | .init => .init
  | .start => .start
  | .shutdown => .shutdown

namespace Executor

variable {h : Handle}

section GuardThread

open GuardThread GuardThread.GuardThreadExecutor

variable {s t : GuardThread.GuardThreadExecutor}

/-- A guard thread executor as its manager sees it: it has a thread from `Initialize` until a
`Shutdown` has joined it. -/
def ofGuardThread (h : Handle) (s : GuardThread.GuardThreadExecutor) : Executor :=
  { toHandle := h
    state := .ofGuardThread s.state
    thread := decide (s.worker ≠ .notCreated ∧ .returned ∉ s.shutdowns) }

theorem ofGuardThread_initializeWith {options : Options} (htype : h.type = .guardThread)
    (hs : s.state = .preInit → s.shutdowns = []) :
    (ofGuardThread h s).initializeWith h.name none =
      (Call.ofMessage (s.initializeWith options)).map (ofGuardThread h) := by
  obtain ⟨id, type, name⟩ := h
  obtain rfl : type = .guardThread := htype
  unfold Executor.initializeWith GuardThreadExecutor.initializeWith initializeOnce
    GuardThread.GuardThreadExecutor.initializeWith
  cases hstate : s.state with
  | preInit =>
    simp [ofGuardThread, hstate, State.ofGuardThread, Call.ofMessage, Call.map, hs hstate]
  | init | start | shutdown =>
    simp [ofGuardThread, hstate, State.ofGuardThread, Call.ofMessage, Call.map]

theorem ofGuardThread_start (htype : h.type = .guardThread) :
    (ofGuardThread h s).start none = (Call.ofMessage s.start).map (ofGuardThread h) := by
  unfold Executor.start GuardThreadExecutor.start startOnce GuardThread.GuardThreadExecutor.start
  cases hstate : s.state <;>
    simp [ofGuardThread, htype, hstate, State.ofGuardThread, Call.ofMessage, Call.map]

/-- No other call than `Initialize` and `Start` takes the executor out of `kShutdown`. -/
theorem guardThread_state_shutdown {a : Act} (ha : a ≠ .start ∧ ∀ o, a ≠ .initializeWith o)
    (hs : s.state = .shutdown) (ht : step s a = some t) : t.state = .shutdown := by
  cases step_cases ht with
  | initializes _ => exact absurd rfl (ha.2 _)
  | initializeRejected _ => exact absurd rfl (ha.2 _)
  | start => exact absurd rfl ha.1
  | shutdown _ => rfl
  | _ => exact hs

/-- A `Shutdown` from its exchange to the end of its join. -/
theorem ofGuardThread_shutdown {es : List Act} {i : ℕ} (hs : s.state ≠ .shutdown)
    (hes : ∀ a ∈ es, a ≠ .start ∧ ∀ o, a ≠ .initializeWith o)
    (hr : run step s (.shutdown :: (es ++ [.shutdownJoin i])) = some t) :
    ofGuardThread h t = (ofGuardThread h s).shutdown := by
  obtain ⟨u, hu, hr⟩ := run_cons_eq_some.mp hr
  obtain ⟨v, hv, ht⟩ := run_snoc_eq_some.mp hr
  have hu_state : u.state = .shutdown := by
    cases step_cases hu with
    | shutdownAgain hdown => exact absurd hdown hs
    | shutdown _ => rfl
  have hv_state : v.state = .shutdown :=
    run_invariant_of_mem (P := fun s => s.state = .shutdown)
      (fun s a t hs ha ht => guardThread_state_shutdown (hes a ha) hs ht) hu_state hv
  have hlive : (ofGuardThread h s).state ≠ .shutdown := by
    cases hstate : s.state <;> simp_all [ofGuardThread, State.ofGuardThread]
  rw [Executor.shutdown, if_neg hlive]
  cases step_cases ht with
  | shutdownJoin hjoin _ =>
    have hmem : GuardThread.ShutdownPc.returned ∈ v.shutdowns.set i .returned :=
      List.mem_set (List.getElem?_eq_some_iff.mp hjoin).1 _
    simp [ofGuardThread, hv_state, State.ofGuardThread, hmem]

end GuardThread

section TimeWheel

open TimeWheel TimeWheel.TimerLoop

variable {s t : TimerLoop}

/-- A time wheel executor as its manager sees it. -/
def ofTimeWheel (h : Handle) (s : TimerLoop) : Executor :=
  { toHandle := h
    state := .ofTimeWheel s.exec.state
    thread := decide (s.pc ≠ .noThread) }

theorem ofTimeWheel_initial {options : Options} (htype : h.type = .timeWheel) :
    initializeWith h.name none { toHandle := h } =
      .returns (ofTimeWheel h (TimerLoop.initial options)) := by
  obtain ⟨id, type, name⟩ := h
  obtain rfl : type = .timeWheel := htype
  rfl

/-- `Start`, which terminates the program if it finds a thread. -/
theorem ofTimeWheel_start (htype : h.type = .timeWheel) :
    ((ofTimeWheel h s).start none).after = (step s .start).map (ofTimeWheel h) := by
  unfold Executor.start TimeWheelExecutor.start startOnce TimerLoop.step
  cases hstate : s.exec.state with
  | init =>
    -- a thread that is there already is destroyed, and the program ends
    by_cases hpc : s.pc = .noThread <;>
      simp [ofTimeWheel, htype, hstate, State.ofTimeWheel, hpc]
  | preInit | start | shutdown => simp [ofTimeWheel, htype, hstate, State.ofTimeWheel]

theorem timeWheel_state_shutdown {a : Act} (ha : a ≠ .start ∧ a ≠ .initializeAgain)
    (hs : s.exec.state = .shutdown) (ht : step s a = some t) : t.exec.state = .shutdown := by
  cases step_cases ht with
  | empty _ htake | taken _ _ htake =>
    rw [(ticks_of_takeTick htake).2]
    exact hs
  | executeAt hexec =>
    rw [executeAt_rest hexec]
    exact hs
  | initializeAgain => exact absurd rfl ha.2
  | start _ _ => exact absurd rfl ha.1
  | startRejected _ => exact absurd rfl ha.1
  | shutdown _ _ => rfl
  | _ => exact hs

/-- A `Shutdown` from its exchange to the end of its join. -/
theorem ofTimeWheel_shutdown {es : List Act} (hs : s.exec.state ≠ .shutdown)
    (hes : ∀ a ∈ es, a ≠ .start ∧ a ≠ .initializeAgain)
    (hr : run step s (.shutdown :: (es ++ [.join])) = some t) :
    ofTimeWheel h t = (ofTimeWheel h s).shutdown := by
  obtain ⟨u, hu, hr⟩ := run_cons_eq_some.mp hr
  obtain ⟨v, hv, ht⟩ := run_snoc_eq_some.mp hr
  have hu_state : u.exec.state = .shutdown := by
    cases step_cases hu with
    | shutdownAgain hdown => exact absurd hdown hs
    | shutdown _ _ => rfl
  have hv_state : v.exec.state = .shutdown :=
    run_invariant_of_mem (P := fun s => s.exec.state = .shutdown)
      (fun s a t hs ha ht => timeWheel_state_shutdown (hes a ha) hs ht) hu_state hv
  have hlive : (ofTimeWheel h s).state ≠ .shutdown := by
    cases hstate : s.exec.state <;> simp_all [ofTimeWheel, State.ofTimeWheel]
  rw [Executor.shutdown, if_neg hlive]
  cases step_cases ht with
  | join _ _ => simp [ofTimeWheel, hv_state, State.ofTimeWheel]

end TimeWheel

end Executor

end Ados.Core
