import Ados.TimeWheel.LoopInvariant

/-!
# The timer loop, lock by lock

The parts of `TimerLoop` under `tick_mutex_`, taken apart: the lock, the `Tick` of the first wheel,
the unlock before the tasks of the list and the lock after them, `++current_tick_count_`, and the
last unlock. `ExecuteAt` waits while the loop holds the mutex; the other calls do not use it. A task
or its handler that throws leaves the tick between the two locked parts, so the wheel has been
advanced and the counter has not.

## Main definitions

* `Section`, `LockedLoop`: where the loop is under the mutex, and the loop with its mutex
* `LockedLoop.step`, `LockedLoop.Step`: the step function, and what one step can do
* `LockedLoop.whole`: the loop in whole locked parts
* `TimerLoop.InStep`: the cursor of the first wheel and the counter
* `LockedLoop.AtHead`: the wheel and the clock are in step at the condition of the outer loop

## Main results

* `LockedLoop.run_whole`: a run lock by lock is a run in whole locked parts
* `LockedLoop.in_step_iff`: wheel and clock stay in step exactly as long as the outer handler is not
  reached, unless the first wheel has one slot
-/

namespace Ados.TimeWheel

open Transition

/-- Where the loop is under `tick_mutex_`. -/
inductive Section where
  /-- it does not hold the mutex -/
  | outside
  /-- before the `Tick` of the first wheel -/
  | tick
  /-- before the unlock that precedes the tasks -/
  | release (taskList : List Entry)
  /-- before `++current_tick_count_` -/
  | count
  /-- before the unlock that ends the tick -/
  | unlock
  deriving DecidableEq, Repr

/-- The part of the loop that the section is in. -/
def Section.At : Section → Pc → Prop
  | .outside, _ => True
  | .tick, pc | .release _, pc => pc = .lock
  | .count, pc | .unlock, pc => pc = .lock ∨ pc = .running []

/-- The timer loop and its mutex. -/
structure LockedLoop where
  loop : TimerLoop
  part : Section := .outside
  tickMutex : Bool := false

namespace LockedLoop

/-- An executor after `Initialize`. -/
def initial (options : Options) : LockedLoop := { loop := .initial options }

/-- `tick_mutex_.lock()`. -/
def lock (s : LockedLoop) (part : Section) : Option LockedLoop :=
  if s.tickMutex then none else some { s with part := part, tickMutex := true }

/-- A step of the timer thread that neither a task nor the logger nor the clock decides. -/
def loopStep (s : LockedLoop) : Option LockedLoop :=
  match s.part with
  | .outside =>
    match s.loop.pc with
    | .lock => s.lock .tick
    | .running [] => s.lock .count
    | _ => s.loop.loopStep.map fun loop => { s with loop := loop }
  | .tick =>
    s.loop.exec.takeTick.toOption.map fun r =>
      { s with
        loop := { s.loop with exec := r.2 }
        part := if r.1 = [] then .count else .release r.1 }
  | .release taskList =>
    some { s with
      loop := { s.loop with pc := .running taskList }, part := .outside, tickMutex := false }
  | .count =>
    some { s with loop := { s.loop with exec := s.loop.exec.countTick }, part := .unlock }
  | .unlock =>
    some { s with loop := { s.loop with pc := .head }, part := .outside, tickMutex := false }

/-- One step of the timer thread, of a task or the logger called by it, or of a caller. -/
def step (s : LockedLoop) : Act → Option LockedLoop
  | .loop => s.loopStep
  | .executeAt tp =>
    if s.tickMutex then none
    else (s.loop.step (.executeAt tp)).map fun loop => { s with loop := loop }
  | a => (s.loop.step a).map fun loop => { s with loop := loop }

/-- What one step can do. -/
inductive Step (s : LockedLoop) : Act → LockedLoop → Prop
  | free {a loop} :
      (a = .loop → s.part = .outside ∧ s.loop.pc ≠ .lock ∧ s.loop.pc ≠ .running []) →
      (∀ tp, a = .executeAt tp → s.tickMutex = false) → s.loop.step a = some loop →
      Step s a { s with loop := loop }
  | lock : s.part = .outside → s.tickMutex = false → s.loop.pc = .lock →
      Step s .loop { s with part := .tick, tickMutex := true }
  | lockAgain : s.part = .outside → s.tickMutex = false → s.loop.pc = .running [] →
      Step s .loop { s with part := .count, tickMutex := true }
  | tick {taskList exec} : s.part = .tick → s.loop.exec.takeTick = .ok (taskList, exec) →
      Step s .loop { s with
        loop := { s.loop with exec := exec }
        part := if taskList = [] then .count else .release taskList }
  | release {taskList} : s.part = .release taskList →
      Step s .loop { s with
        loop := { s.loop with pc := .running taskList }, part := .outside, tickMutex := false }
  | count : s.part = .count →
      Step s .loop { s with loop := { s.loop with exec := s.loop.exec.countTick }, part := .unlock }
  | unlock : s.part = .unlock →
      Step s .loop { s with
        loop := { s.loop with pc := .head }, part := .outside, tickMutex := false }

theorem lock_eq_some {s s' : LockedLoop} {part : Section} (h : s.lock part = some s') :
    s.tickMutex = false ∧ s' = { s with part := part, tickMutex := true } := by
  unfold lock at h
  split at h
  · exact absurd h (by simp)
  · next hfree =>
    cases h
    exact ⟨by simpa using hfree, rfl⟩

theorem loopStep_cases {s s' : LockedLoop} (h : s.loopStep = some s') : Step s .loop s' := by
  unfold loopStep at h
  split at h
  · next hpart =>
    split at h
    · next hpc =>
      obtain ⟨hfree, rfl⟩ := lock_eq_some h
      exact .lock hpart hfree hpc
    · next hpc =>
      obtain ⟨hfree, rfl⟩ := lock_eq_some h
      exact .lockAgain hpart hfree hpc
    · next hlock hrunning =>
      obtain ⟨loop, hloop, rfl⟩ := Option.map_eq_some_iff.mp h
      exact .free (fun _ => ⟨hpart, hlock, hrunning⟩) (fun _ h => absurd h (by simp)) hloop
  · next hpart =>
    obtain ⟨⟨taskList, exec⟩, htake, rfl⟩ := Timer.toOption_eq_some.mp h
    exact .tick hpart htake
  · next taskList hpart =>
    cases h
    exact .release hpart
  · next hpart =>
    cases h
    exact .count hpart
  · next hpart =>
    cases h
    exact .unlock hpart

theorem step_cases {s s' : LockedLoop} {a : Act} (h : s.step a = some s') : Step s a s' := by
  cases a with
  | loop => exact loopStep_cases h
  | executeAt tp =>
    simp only [step] at h
    split at h
    · exact absurd h (by simp)
    · next hfree =>
      obtain ⟨loop, hloop, rfl⟩ := Option.map_eq_some_iff.mp h
      exact .free (fun h => absurd h (by simp)) (fun _ _ => by simpa using hfree) hloop
  | _ =>
    simp only [step] at h
    obtain ⟨loop, hloop, rfl⟩ := Option.map_eq_some_iff.mp h
    exact .free (fun h => absurd h (by simp)) (fun _ h => absurd h (by simp)) hloop

variable {options : Options} {s s' u : LockedLoop} {a : Act} {es : List Act}

/-- The mutex is held in the sections, and the sections are where the loop is at its locks. -/
structure Guarded (s : LockedLoop) : Prop where
  mutex : s.tickMutex = false ↔ s.part = .outside
  pc : s.part.At s.loop.pc

theorem guarded_initial : Guarded (initial options) := ⟨by simp [initial], trivial⟩

/-- At its locks the loop waits for no task and no logger. -/
theorem Guarded.pc_eq (h : Guarded s) (hpart : s.part ≠ .outside) :
    s.loop.pc = .lock ∨ s.loop.pc = .running [] := by
  have hpc := h.pc
  cases hp : s.part <;> simp only [hp, Section.At] at hpc hpart
  · exact absurd rfl hpart
  · exact Or.inl hpc
  · exact Or.inl hpc
  · exact hpc
  · exact hpc

end LockedLoop

namespace TimerLoop

variable {options : Options} {s s' : TimerLoop} {a : Act}

/-- At its locks, only the lifecycle calls and `ExecuteAt` go on beside the loop. -/
theorem Step.beside (hs : Step s a s') (ha : a ≠ .loop) (hcall : ∀ tp, a ≠ .executeAt tp)
    (hpc : s.pc = .lock ∨ s.pc = .running []) :
    (∃ state joining, s' = { s with exec := { s.exec with state := state }, joining := joining }) ∧
      ∀ (exec : TimeWheelExecutor Call) (pc : Pc), exec.state = s.exec.state → pc ≠ .noThread →
        step { s with exec := exec, pc := pc } a =
          some { s' with exec := { exec with state := s'.exec.state }, pc := pc } := by
  cases hs with
  | exit _ _ | enter _ _ | slice _ _ | again _ _ _ | wake _ _ | empty _ _ | taken _ _ _ | count _
  | begins _ => exact absurd rfl ha
  | clock h _ | returns h | throws h | logged h | outerLogged h | logThrows h | start _ h =>
    simp [h] at hpc
  | executeAt _ => exact absurd rfl (hcall _)
  | initializeAgain => exact ⟨⟨.init, s.joining, rfl⟩, fun exec pc _ _ => rfl⟩
  | startRejected hstate =>
    refine ⟨⟨.start, s.joining, rfl⟩, fun exec pc heq _ => ?_⟩
    simp [step, heq, hstate]
  | shutdownAgain hstate =>
    refine ⟨⟨s.exec.state, s.joining, rfl⟩, fun exec pc heq _ => ?_⟩
    have hexec : { exec with state := s.exec.state } = exec := by rw [← heq]
    rw [hexec]
    exact if_pos (heq.trans hstate)
  | shutdown hstate hjoining =>
    refine ⟨⟨.shutdown, true, rfl⟩, fun exec pc heq _ => ?_⟩
    simp [step, heq, hstate, hjoining]
  | join _ h => rcases hpc with hpc | hpc <;> simp [hpc] at h

end TimerLoop

/-- The number of ticks of the wheel that the counter has not counted. -/
def Pc.uncounted : Pc → ℕ
  | .running _ | .body _ | .innerCatch _ | .outerCatch => 1
  | _ => 0

namespace TimerLoop

/-- The cursor of the first wheel, of the size in the options, and the counter; a tick that is not
counted has wheels. -/
structure InStep (options : Options) (s : TimerLoop) : Prop where
  size : ∀ d ∈ (digits s.exec.timingWheelVec).head?, options.wheelSize.head? = some d.size
  pos : ∀ d ∈ (digits s.exec.timingWheelVec).head?,
    d.pos = (s.exec.currentTickCount + s.pc.uncounted) % d.size
  ne_nil : s.pc.uncounted = 1 → s.exec.timingWheelVec ≠ []

/-- The outer handler returns to the loop only if the first wheel has one slot. -/
def KeepsStep (options : Options) (s : TimerLoop) (a : Act) : Prop :=
  a = .logReturns → s.pc = .outerCatch → options.wheelSize.head? = some 1

theorem inStep_initial : InStep options (initial options) := by
  refine ⟨?_, ?_, by simp [initial, Pc.uncounted]⟩
  all_goals
    simp only [initial, TimeWheelExecutor.initialized, TimeWheelExecutor.initializeWith, if_true,
      List.nil_append, digits_makeWheels]
    cases options.wheelSize <;> simp [startDigits, Pc.uncounted]

/-- A step that moves neither the cursor nor the counter. -/
theorem InStep.congr (h : InStep options s)
    (hdigits : digits s'.exec.timingWheelVec = digits s.exec.timingWheelVec)
    (hcount : s'.exec.currentTickCount = s.exec.currentTickCount)
    (huncounted : s'.pc.uncounted = s.pc.uncounted) : InStep options s' := by
  refine ⟨?_, ?_, fun hu hnil => ?_⟩
  · rw [hdigits]; exact h.size
  · rw [hdigits, hcount, huncounted]; exact h.pos
  · rw [hnil] at hdigits
    exact h.ne_nil (huncounted ▸ hu) (List.map_eq_nil_iff.mp hdigits.symm)

/-- A tick moves the cursor of the first wheel, and is not yet counted. -/
theorem InStep.taken (h : InStep options s) (hu : s.pc.uncounted = 0) {taskList : TaskList Call}
    {exec : TimeWheelExecutor Call} (htake : s.exec.takeTick = .ok (taskList, exec)) {pc : Pc}
    (hpc : pc.uncounted = 1) : InStep options { s with exec := exec, pc := pc } := by
  obtain ⟨hticks, hrest⟩ := ticks_of_takeTick htake
  obtain ⟨w, hw, hlist⟩ := hticks.head
  obtain ⟨above, hvec⟩ := List.head?_eq_some_iff.mp hw
  obtain ⟨hlt, -⟩ := List.getElem?_eq_some_iff.mp hlist
  have hcount : exec.currentTickCount = s.exec.currentTickCount := by rw [hrest]
  have hsize := h.size
  have hpos := h.pos
  simp only [hvec, digits_cons, List.head?_cons, Option.mem_some_iff, forall_eq', hu,
    Nat.add_zero] at hsize hpos
  have hhead : (digits exec.timingWheelVec).head? =
      some ⟨(s.exec.currentTickCount + 1) % w.wheel.length, w.wheel.length⟩ := by
    rw [hticks.digits, hvec, digits_cons, Odometer.head?_advance hlt, hpos, Nat.mod_add_mod]
  refine ⟨?_, ?_, fun _ (hnil : exec.timingWheelVec = []) => ?_⟩
  · simp only [hhead, Option.mem_some_iff, forall_eq']
    exact hsize
  · simp only [hhead, Option.mem_some_iff, forall_eq', hpc, hcount]
  · rw [hnil] at hhead
    exact absurd hhead (by simp [digits])

/-- The tick is counted. -/
theorem InStep.counted (h : InStep options s) (hu : s.pc.uncounted = 1)
    {exec : TimeWheelExecutor Call} (hvec : exec.timingWheelVec = s.exec.timingWheelVec)
    (hcount : exec.currentTickCount = s.exec.currentTickCount) :
    InStep options { s with exec := exec.countTick, pc := .head } := by
  refine ⟨?_, ?_, by simp [Pc.uncounted]⟩
  · simp only [TimeWheelExecutor.countTick, hvec]
    exact h.size
  · simp only [TimeWheelExecutor.countTick, hvec, hcount, Pc.uncounted, Nat.add_zero]
    exact hu ▸ h.pos

theorem InStep.step (h : InStep options s) (hq : KeepsStep options s a) (hs : Step s a s') :
    InStep options s' := by
  cases hs with
  | exit hpc _ | enter hpc _ | slice hpc _ | again hpc _ _ | wake hpc _ | begins hpc | clock hpc _
  | returns hpc | throws hpc | logged hpc | logThrows hpc | start _ hpc =>
    exact h.congr rfl rfl (by simp [hpc, Pc.uncounted])
  | initializeAgain | startRejected _ | shutdownAgain _ | shutdown _ _ => exact h.congr rfl rfl rfl
  | @empty exec hpc htake =>
    have htaken : InStep options { s with exec := exec, pc := .running [] } :=
      h.taken (by simp [hpc, Pc.uncounted]) htake rfl
    exact htaken.counted rfl rfl rfl
  | taken hpc _ htake => exact h.taken (by simp [hpc, Pc.uncounted]) htake rfl
  | count hpc => exact h.counted (by simp [hpc, Pc.uncounted]) rfl rfl
  | outerLogged hpc =>
    -- every count is `0` modulo `1`
    have hone := hq rfl hpc
    refine ⟨h.size, fun d hd => ?_, by simp [Pc.uncounted]⟩
    have hsize : d.size = 1 := Option.some.inj ((h.size d hd).symm.trans hone)
    rw [h.pos d hd, hsize, Nat.mod_one, Nat.mod_one]
  | executeAt hexec =>
    exact h.congr (executeAt_digits hexec).1 (by rw [executeAt_rest hexec]) rfl
  | join _ hpc =>
    refine ⟨by simp [digits], by simp [digits], by simp [Pc.uncounted]⟩

/-- The return of the outer handler leaves the counter behind, unless the wheel has one slot. -/
theorem InStep.keepsStep (h : InStep options s) (hpc : s.pc = .outerCatch)
    (hpos : ∀ d ∈ (digits s.exec.timingWheelVec).head?,
      d.pos = s.exec.currentTickCount % d.size) : options.wheelSize.head? = some 1 := by
  obtain ⟨w, above, hvec⟩ := List.exists_cons_of_ne_nil (h.ne_nil (by simp [hpc, Pc.uncounted]))
  have hd : (⟨w.currentPos, w.wheel.length⟩ : Digit) ∈ (digits s.exec.timingWheelVec).head? := by
    simp [hvec]
  have hmod := (h.pos _ hd).symm.trans (hpos _ hd)
  simp only [hpc, Pc.uncounted] at hmod
  rw [h.size _ hd]
  have hdvd : w.wheel.length ∣ 1 :=
    (Nat.modEq_zero_iff_dvd).mp (Nat.ModEq.add_left_cancel' s.exec.currentTickCount hmod)
  exact congrArg some (Nat.dvd_one.mp hdvd)

end TimerLoop

namespace LockedLoop

variable {options : Options} {s s' u : LockedLoop} {a : Act} {es : List Act}

/-- The loop in whole locked parts: a list is taken and a tick is counted at the beginning of the
part that does it. -/
def whole (s : LockedLoop) : TimerLoop :=
  match s.part with
  | .outside | .tick => s.loop
  | .release taskList => { s.loop with pc := .running taskList }
  | .count => { s.loop with exec := s.loop.exec.countTick, pc := .head }
  | .unlock => { s.loop with pc := .head }

theorem Guarded.step (h : Guarded s) (hs : Step s a s') : Guarded s' := by
  cases hs with
  | @free _ loop hloop hcall hstep =>
    refine ⟨h.mutex, ?_⟩
    by_cases hpart : s.part = .outside
    · simp [hpart, Section.At]
    · have hlocked : s.tickMutex ≠ false := fun heq => hpart (h.mutex.mp heq)
      obtain ⟨⟨state, joining, rfl⟩, -⟩ := (TimerLoop.step_cases hstep).beside
        (fun ha => hpart (hloop ha).1) (fun tp ha => hlocked (hcall tp ha)) (h.pc_eq hpart)
      exact h.pc
  | lock _ _ hpc => exact ⟨by simp, hpc⟩
  | lockAgain _ _ hpc => exact ⟨by simp, Or.inr hpc⟩
  | @tick taskList exec hpart htake =>
    have hlock := h.pc
    have hmutex := h.mutex
    simp only [hpart, Section.At] at hlock
    simp only [hpart, reduceCtorEq, iff_false] at hmutex
    refine ⟨?_, ?_⟩ <;> split
    · simp [hmutex]
    · simp [hmutex]
    · exact Or.inl hlock
    · exact hlock
  | count hpart =>
    have hpc := h.pc
    have hmutex := h.mutex
    simp only [hpart, Section.At] at hpc
    simp only [hpart, reduceCtorEq, iff_false] at hmutex
    exact ⟨by simp [hmutex], hpc⟩
  | release _ | unlock _ => exact ⟨by simp, trivial⟩

/-- A step lock by lock is a step in whole locked parts, or none. -/
theorem Guarded.whole_step (h : Guarded s) (hs : Step s a s') :
    s'.whole = s.whole ∨ s.whole.step a = some s'.whole := by
  have hpc := h.pc
  cases hs with
  | @free _ loop hloop hcall hstep =>
    right
    by_cases hpart : s.part = .outside
    · simpa only [whole, hpart] using hstep
    · have hlocked : s.tickMutex ≠ false := fun heq => hpart (h.mutex.mp heq)
      obtain ⟨⟨state, joining, rfl⟩, hbeside⟩ := (TimerLoop.step_cases hstep).beside
        (fun ha => hpart (hloop ha).1) (fun tp ha => hlocked (hcall tp ha)) (h.pc_eq hpart)
      cases hp : s.part with
      | outside => exact absurd hp hpart
      | tick => simpa only [whole, hp] using hstep
      | release taskList =>
        simpa only [whole, hp] using hbeside s.loop.exec (.running taskList) rfl (by simp)
      | count =>
        simp only [whole, hp]
        exact hbeside s.loop.exec.countTick .head rfl (by simp)
      | unlock => simpa only [whole, hp] using hbeside s.loop.exec .head rfl (by simp)
  | lock hpart _ _ => exact Or.inl (by simp only [whole, hpart])
  | lockAgain hpart _ hpc =>
    apply Or.inr
    simp only [whole, hpart, TimerLoop.step, TimerLoop.loopStep, hpc]
  | @tick taskList exec hpart htake =>
    apply Or.inr
    simp only [hpart, Section.At] at hpc
    simp only [whole, hpart, TimerLoop.step, TimerLoop.loopStep, hpc, htake, Except.toOption,
      Option.map_some]
    split <;> rfl
  | release hpart | count hpart | unlock hpart => exact Or.inl (by simp only [whole, hpart])

/-- **Taking the locked parts apart adds no behaviour.** A run lock by lock is a run in whole locked
parts. -/
theorem run_whole (hr : run step (initial options) es = some u) :
    ∃ fs, run TimerLoop.step (TimerLoop.initial options) fs = some u.whole := by
  have hstep : ∀ s a t, Guarded s → step s a = some t →
      ∃ fs, run TimerLoop.step s.whole fs = some t.whole := by
    intro s a t h hs
    rcases h.whole_step (step_cases hs) with hsilent | hwhole
    · exact ⟨[], congrArg some hsilent.symm⟩
    · exact ⟨[a], (run_singleton _ a).trans hwhole⟩
  exact run_abstraction (fun s a t h hs => Guarded.step h (step_cases hs)) hstep guarded_initial hr

/-- At the condition of the outer loop, the mutex is free and the first wheel, which has `w₀` slots,
stands where the counter says. -/
def AtHead (options : Options) (s : LockedLoop) : Prop :=
  s.loop.pc = .head → s.tickMutex = false ∧
    ∀ w w₀, s.loop.exec.timingWheelVec.head? = some w → options.wheelSize.head? = some w₀ →
      w.currentPos = s.loop.exec.currentTickCount % w₀

/-- The outer handler returns to the loop only if the first wheel has one slot. -/
def KeepsStep (options : Options) (s : LockedLoop) (a : Act) : Prop :=
  a = .logReturns → s.loop.pc = .outerCatch → options.wheelSize.head? = some 1

instance (options : Options) (s : LockedLoop) (a : Act) : Decidable (KeepsStep options s a) :=
  inferInstanceAs (Decidable (_ → _ → _))

/-- At the condition of the outer loop, and in its handler, the loop is in no section. -/
theorem Guarded.outside (h : Guarded s) (hpc : s.loop.pc = .head ∨ s.loop.pc = .outerCatch) :
    s.part = .outside := by
  by_contra hpart
  rcases h.pc_eq hpart with hlock | hrunning <;> rcases hpc with hpc | hpc <;> simp_all

/-- The outer handler logs between the parts that are locked. -/
theorem KeepsStep.whole (hq : KeepsStep options s a) :
    TimerLoop.KeepsStep options s.whole a := by
  intro ha hpc
  apply hq ha
  cases hp : s.part <;> simp only [LockedLoop.whole, hp] at hpc
  · exact hpc
  · exact hpc
  · exact absurd hpc (by simp)
  · exact absurd hpc (by simp)
  · exact absurd hpc (by simp)

/-- What every run keeps whose outer handler does not return to the loop. -/
structure Stepping (options : Options) (s : LockedLoop) : Prop where
  guarded : Guarded s
  inStep : s.whole.InStep options

theorem stepping_initial : Stepping options (initial options) :=
  ⟨guarded_initial, TimerLoop.inStep_initial⟩

theorem Stepping.step (h : Stepping options s) (hq : KeepsStep options s a) (hs : Step s a s') :
    Stepping options s' := by
  refine ⟨h.guarded.step hs, ?_⟩
  rcases h.guarded.whole_step hs with hsilent | hwhole
  · exact hsilent ▸ h.inStep
  · exact h.inStep.step hq.whole (TimerLoop.step_cases hwhole)

theorem Stepping.atHead (h : Stepping options s) : AtHead options s := by
  intro hpc
  have hpart := h.guarded.outside (Or.inl hpc)
  refine ⟨h.guarded.mutex.mpr hpart, fun w w₀ hw hw₀ => ?_⟩
  have hin := h.inStep
  simp only [whole, hpart] at hin
  have hd : (⟨w.currentPos, w.wheel.length⟩ : Digit) ∈
      (digits s.loop.exec.timingWheelVec).head? := by
    simp [digits, hw]
  have hpos := hin.pos _ hd
  have hsize : w₀ = w.wheel.length := Option.some.inj (hw₀.symm.trans (hin.size _ hd))
  simpa only [hpc, Pc.uncounted, Nat.add_zero, hsize] using hpos

/-- **Wheel and clock stay in step exactly as long as the outer handler is not reached.** At every
head of the outer loop the mutex is free and the first wheel stands where the counter says, if and
only if the outer handler never returns to the loop, unless the first wheel has one slot. -/
theorem in_step_iff (hr : run step (initial options) es = some u) :
    AllStates step (AtHead options) (initial options) es ↔
      AllSteps step (KeepsStep options) (initial options) es := by
  refine allStates_iff_of_invariant (J := Stepping options) (fun _ h => h.atHead) ?_ ?_
    stepping_initial hr
  · exact fun s a t h hq hs => h.step hq (step_cases hs)
  · rintro s a t h hs hhead rfl hpc
    have hin := h.inStep
    simp only [whole, h.guarded.outside (Or.inr hpc)] at hin
    obtain ⟨loop, hloop, rfl⟩ := Option.map_eq_some_iff.mp hs
    simp only [TimerLoop.step, hpc, Option.some.injEq] at hloop
    subst hloop
    refine hin.keepsStep hpc fun d hd => ?_
    obtain ⟨w, hw, rfl⟩ : ∃ w, s.loop.exec.timingWheelVec.head? = some w ∧
        ⟨w.currentPos, w.wheel.length⟩ = d := by
      simpa [digits] using hd
    exact (hhead rfl).2 w _ hw (hin.size _ hd)

/-- A task that throws is logged, and its tick is counted. -/
theorem in_step_iff_throws :
    ∃ u, run step (initial { wheelSize := [2] }) [.start, .clock 0, .executeAt 0, .loop, .loop,
        .loop, .loop, .loop, .loop, .loop, .taskThrows, .logReturns, .loop, .loop, .loop] =
          some u ∧ u.loop.pc = .head ∧ AtHead { wheelSize := [2] } u := by
  have h : ((run step (initial { wheelSize := [2] })
      [.start, .clock 0, .executeAt 0, .loop, .loop, .loop, .loop, .loop, .loop, .loop, .taskThrows,
        .logReturns, .loop, .loop, .loop]).map fun u => u.loop.pc) = some .head := by
    decide +kernel
  obtain ⟨u, hu, hpc⟩ := Option.map_eq_some_iff.mp h
  exact ⟨u, hu, hpc, ((in_step_iff hu).mpr (by decide +kernel)).last hu⟩

/-- When the logger of the inner handler throws and the outer one logs that, the wheel has been
advanced and the tick is not counted. -/
theorem out_of_step :
    ∃ u, run step (initial { wheelSize := [2] }) [.start, .clock 0, .executeAt 0, .loop, .loop,
        .loop, .loop, .loop, .loop, .loop, .taskThrows, .logThrows, .logReturns] = some u ∧
      u.loop.pc = .head ∧ u.loop.exec.currentTickCount = 0 ∧
      u.loop.exec.timingWheelVec.map (·.currentPos) = [1] ∧ ¬ AtHead { wheelSize := [2] } u := by
  have h : ((run step (initial { wheelSize := [2] }) [.start, .clock 0, .executeAt 0, .loop, .loop,
      .loop, .loop, .loop, .loop, .loop, .taskThrows, .logThrows, .logReturns]).map fun u =>
        (u.loop.pc, u.loop.exec.currentTickCount, u.loop.exec.timingWheelVec.map (·.currentPos))) =
      some (.head, 0, [1]) := by
    decide +kernel
  obtain ⟨u, hu, hval⟩ := Option.map_eq_some_iff.mp h
  simp only [Prod.mk.injEq] at hval
  obtain ⟨hpc, hcount, hpos⟩ := hval
  refine ⟨u, hu, hpc, hcount, hpos, fun hhead => ?_⟩
  obtain ⟨w, hw, hone⟩ := List.map_eq_singleton_iff.mp hpos
  have hzero := (hhead hpc).2 w 2 (by simp [hw]) rfl
  rw [hcount, hone] at hzero
  exact absurd hzero (by simp)

end LockedLoop

end Ados.TimeWheel
