import Ados.TimeWheel.EarlyWakeUp

/-!
# The sliced sleep adds up

Each pass of the timer loop sleeps for `dt` in slices of `kMaxSleepDt` and a last one for the rest,
and moves `last_loop_time_point` by every slice. As long as `Shutdown` is not called the slices of a
pass are as many as `dt` needs, and their sum is `dt`.

## Main definitions

* `slices dt`: the number of slices that a time needs
* `Slept`, `Sleeping`: the slices of a pass that has slept, and of one that has time left
* `SleepLog`, `TimerLoop.note`: the record of the ticks and of the slices of the current pass
* `TimerLoop.Logged`: what the record says of the state

## Main results

* `TimerLoop.count_loop_lt`: the inner loop ends, whatever the other threads do
* `TimerLoop.sleep_without_drift`: the slices of a pass add up to `dt`, and the passes to the clock
-/

namespace Ados.TimeWheel

open Transition

/-- The number of slices of at most `kMaxSleepDt` that a time is cut into. -/
def slices (dt : ℤ) : ℕ := ((dt + (kMaxSleepDt - 1)) / kMaxSleepDt).toNat

/-- The slices of a pass that has slept the whole of `dt`. -/
structure Slept (dt : ℤ) (l : List ℤ) : Prop where
  bounds : ∀ x ∈ l, 0 < x ∧ x ≤ kMaxSleepDt
  length_eq : l.length = slices dt
  sum_eq : l.sum = dt

/-- The slices of a pass that has `realDt` left to sleep. -/
structure Sleeping (dt realDt : ℤ) (l : List ℤ) : Prop where
  eq_max : ∀ x ∈ l, x = kMaxSleepDt
  add_eq : l.length * kMaxSleepDt + realDt = dt

section Slices

variable {dt realDt : ℤ} {l : List ℤ}

theorem Sleeping.nil : Sleeping dt dt [] := ⟨by simp, by simp⟩

theorem Sleeping.le (h : Sleeping dt realDt l) : realDt ≤ dt := by
  rw [← h.add_eq]
  unfold kMaxSleepDt
  omega

theorem Sleeping.sum_eq (h : Sleeping dt realDt l) : l.sum = l.length * kMaxSleepDt := by
  rw [List.sum_eq_card_nsmul l kMaxSleepDt h.eq_max, nsmul_eq_mul]

/-- The rest is never added to a slice: with `dt` below the maximum there is no rest. -/
theorem sleepSlice_eq (hle : realDt ≤ dt) :
    sleepSlice dt realDt = (min realDt kMaxSleepDt, realDt - min realDt kMaxSleepDt) := by
  unfold sleepSlice
  by_cases hmax : kMaxSleepDt < realDt
  · have hnot : ¬ (realDt - kMaxSleepDt ≠ 0 ∧ dt < kMaxSleepDt ∧ realDt - kMaxSleepDt ≤ dt) := by
      omega
    simp only [if_pos hmax, if_neg hnot, Int.min_eq_right hmax.le]
  · simp [hmax, Int.min_eq_left (Int.not_lt.mp hmax)]

theorem slices_of_lt (h : kMaxSleepDt < realDt) :
    slices realDt = slices (realDt - kMaxSleepDt) + 1 := by
  unfold slices kMaxSleepDt at *
  omega

theorem slices_of_le (hpos : 0 < realDt) (h : realDt ≤ kMaxSleepDt) : slices realDt = 1 := by
  unfold slices kMaxSleepDt at *
  omega

theorem slices_zero : slices 0 = 0 := by decide

theorem slices_pos (hpos : 0 < realDt) : 0 < slices realDt := by
  unfold slices kMaxSleepDt
  omega

/-- A slice of the maximum. -/
theorem Sleeping.snoc (h : Sleeping dt realDt l) :
    Sleeping dt (realDt - kMaxSleepDt) (l ++ [kMaxSleepDt]) := by
  constructor
  · intro x hx
    rcases List.mem_append.mp hx with hx | hx
    · exact h.eq_max x hx
    · exact List.mem_singleton.mp hx
  · have hadd := h.add_eq
    rw [List.length_append, List.length_singleton, Nat.cast_add_one, add_one_mul]
    omega

/-- The last slice. -/
theorem Sleeping.last (h : Sleeping dt realDt l) (hpos : 0 < realDt) (hle : realDt ≤ kMaxSleepDt) :
    Slept dt (l ++ [realDt]) := by
  have hadd := h.add_eq
  constructor
  · intro x hx
    rcases List.mem_append.mp hx with hx | hx
    · rw [h.eq_max x hx]
      exact ⟨by decide, le_refl _⟩
    · rw [List.mem_singleton.mp hx]
      exact ⟨hpos, hle⟩
  · rw [List.length_append, List.length_singleton, slices]
    unfold kMaxSleepDt at *
    omega
  · rw [List.sum_append, List.sum_singleton, h.sum_eq, hadd]

end Slices

/-! ## The record -/

/-- The number of ticks of the loop, and the slices slept in the current pass. -/
structure SleepLog where
  ticks : ℕ := 0
  slices : List ℤ := []

/-- What the place in the loop says of the slices of the pass. -/
def Pc.Sliced (dt : ℤ) (l : List ℤ) : Pc → Prop
  | .sleep realDt => 0 < realDt ∧ Sleeping dt realDt l
  | .woken realDt => if realDt = 0 then Slept dt l else 0 < realDt ∧ Sleeping dt realDt l
  | .lock => Slept dt l
  | .running _ => Slept dt l
  | .body _ => Slept dt l
  | .innerCatch _ => Slept dt l
  | _ => True

/-- A slice is one of the maximum, or the last. -/
theorem Sleeping.sliced {dt realDt : ℤ} {l : List ℤ} (h : Sleeping dt realDt l)
    (hpos : 0 < realDt) : (Pc.woken (sleepSlice dt realDt).2).Sliced dt
      (l ++ [(sleepSlice dt realDt).1]) := by
  rw [sleepSlice_eq h.le]
  cases Int.lt_or_le kMaxSleepDt realDt with
  | inl hmax =>
    have hleft : 0 < realDt - kMaxSleepDt := Int.sub_pos_of_lt hmax
    simp only [Pc.Sliced, Int.min_eq_right hmax.le, hleft.ne', if_false]
    exact ⟨hleft, h.snoc⟩
  | inr hle =>
    simp only [Pc.Sliced, Int.min_eq_left hle, Int.sub_self, if_true]
    exact h.last hpos hle

/-- The slices that are not yet followed by a tick. -/
def Pc.unticked (l : List ℤ) : Pc → ℤ
  | .sleep _ => l.sum
  | .woken _ => l.sum
  | .lock => l.sum
  | _ => 0

namespace TimerLoop

/-- A pass begins without slices, each sleep adds one, and the tick of the first wheel counts. -/
def note (s : TimerLoop) (a : Act) (log : SleepLog) : SleepLog :=
  match a, s.pc with
  | .loop, .head => { log with slices := [] }
  | .loop, .sleep realDt =>
    { log with slices := log.slices ++ [(sleepSlice s.exec.options.dt realDt).1] }
  | .loop, .lock => { log with ticks := log.ticks + 1 }
  | _, _ => log

/-- What the record says of a run without `Shutdown`. -/
structure Logged (options : Options) (s : TimerLoop) (log : SleepLog) : Prop where
  configured : Configured options s
  state : s.exec.state ≠ .shutdown
  joining : s.joining = false
  point : IsTimePoint s.lastLoopTimePoint
  fresh : s.pc = .noThread ∨ s.pc = .entered → log.ticks = 0
  clock : s.pc ≠ .noThread → s.pc ≠ .entered → ∃ now, IsTimePoint now ∧
    s.exec.startTimePoint = getTimestampNs now ∧
    s.lastLoopTimePoint = now + log.ticks * options.dt + s.pc.unticked log.slices
  sliced : s.pc.Sliced options.dt log.slices

variable {options : Options} {s s' u : TimerLoop} {log : SleepLog} {a : Act} {es : List Act}

theorem logged_initial : Logged options (initial options) {} where
  configured := configured_initial
  state := by simp [initial, TimeWheelExecutor.initialized, TimeWheelExecutor.initializeWith]
  joining := rfl
  point := by
    show IsTimePoint 0
    decide
  fresh := fun _ => rfl
  clock := fun h => absurd rfl h
  sliced := trivial

/-- A step that keeps the clock, and what is slept of the pass. -/
theorem Logged.move (h : Logged options s log) {exec : TimeWheelExecutor Call} {pc : Pc} {calls : ℕ}
    {ran : List Ran} (hconf : exec.options = s.exec.options ∧ exec.dtCount = s.exec.dtCount)
    (hstate : exec.state ≠ .shutdown) (hstart : exec.startTimePoint = s.exec.startTimePoint)
    (hpc : s.pc ≠ .noThread ∧ s.pc ≠ .entered) (hfresh : pc ≠ .noThread ∧ pc ≠ .entered)
    (hleft : pc.unticked log.slices = s.pc.unticked log.slices)
    (hsliced : pc.Sliced options.dt log.slices) :
    Logged options { s with exec := exec, pc := pc, calls := calls, ran := ran } log where
  configured := ⟨hconf.1.trans h.configured.options_eq, hconf.2.trans h.configured.dtCount_eq⟩
  state := hstate
  joining := h.joining
  point := h.point
  fresh := fun hp => absurd hp (by simp [hfresh])
  clock := fun _ _ => by
    obtain ⟨now, hnow, hs, hlast⟩ := h.clock hpc.1 hpc.2
    exact ⟨now, hnow, hstart.trans hs, by simpa only [hleft] using hlast⟩
  sliced := hsliced

theorem note_eq (ha : a ≠ .loop) : note s a log = log := by
  cases a <;> first | rfl | exact absurd rfl ha

/-- The slice at the top of what is left to sleep. -/
theorem Logged.slice (h : Logged options s log) {realDt : ℤ} (hpc : s.pc = .sleep realDt)
    (hpoint : IsTimePoint (s.lastLoopTimePoint + (sleepSlice s.exec.options.dt realDt).1)) :
    Logged options { s with
        lastLoopTimePoint := s.lastLoopTimePoint + (sleepSlice s.exec.options.dt realDt).1
        pc := .woken (sleepSlice s.exec.options.dt realDt).2 }
      { log with slices := log.slices ++ [(sleepSlice s.exec.options.dt realDt).1] } := by
  have hsliced := h.sliced
  rw [hpc] at hsliced
  obtain ⟨hpos, hsleeping⟩ := hsliced
  rw [h.configured.options_eq] at hpoint ⊢
  refine ⟨⟨h.configured.options_eq, h.configured.dtCount_eq⟩, h.state, h.joining, hpoint,
    fun hp => absurd hp (by simp), ?_, ?_⟩
  · rintro - -
    obtain ⟨now, hnow, hs, hlast⟩ := h.clock (by simp [hpc]) (by simp [hpc])
    refine ⟨now, hnow, hs, ?_⟩
    rw [hpc] at hlast
    simp only [Pc.unticked, List.sum_append, List.sum_singleton] at hlast ⊢
    omega
  · exact hsleeping.sliced hpos

/-- The tick after a sleep takes its `dt` out of what is slept of the pass. -/
theorem Logged.tick (h : Logged options s log) (hpc : s.pc = .lock)
    {exec : TimeWheelExecutor Call} {pc : Pc}
    (hrest : exec = { s.exec with
      timingWheelVec := exec.timingWheelVec
      timingTaskMap := exec.timingTaskMap
      currentTickCount := exec.currentTickCount })
    (hpc' : pc = .head ∨ ∃ l, pc = .running l) :
    Logged options { s with exec := exec, pc := pc } { log with ticks := log.ticks + 1 } := by
  have hslept := h.sliced
  rw [hpc] at hslept
  have hne : pc ≠ .noThread ∧ pc ≠ .entered := by
    rcases hpc' with rfl | ⟨l, rfl⟩ <;> simp
  rw [hrest]
  refine ⟨⟨h.configured.options_eq, h.configured.dtCount_eq⟩, h.state, h.joining, h.point,
    fun hp => absurd hp (by simp [hne]), ?_, ?_⟩
  · rintro - -
    obtain ⟨now, hnow, hs, hlast⟩ := h.clock (by simp [hpc]) (by simp [hpc])
    refine ⟨now, hnow, hs, ?_⟩
    have hzero : pc.unticked log.slices = 0 := by
      rcases hpc' with rfl | ⟨l, rfl⟩ <;> rfl
    rw [hpc] at hlast
    simp only [Pc.unticked, hslept.sum_eq] at hlast
    simp only [hzero, Nat.cast_add_one, add_one_mul]
    omega
  · rcases hpc' with rfl | ⟨l, rfl⟩
    · trivial
    · exact hslept

theorem Logged.step (hdt : 0 < options.dt) (h : Logged options s log) (hs : Step s a s')
    (hshut : a ≠ .shutdown) : Logged options s' (note s a log) := by
  have hsliced := h.sliced
  cases hs with
  | exit _ hstate => exact absurd hstate h.state
  | enter hpc _ =>
    simp only [note, hpc]
    refine ⟨⟨h.configured.options_eq, h.configured.dtCount_eq⟩, h.state, h.joining, h.point,
      fun hp => absurd hp (by simp), ?_, ?_⟩
    · rintro - -
      obtain ⟨now, hnow, hs, hlast⟩ := h.clock (by simp [hpc]) (by simp [hpc])
      refine ⟨now, hnow, hs, ?_⟩
      rw [hpc] at hlast
      simpa [Pc.unticked] using hlast
    · simp only [Pc.Sliced, h.configured.options_eq]
      exact ⟨hdt, Sleeping.nil⟩
  | slice hpc hpoint =>
    simp only [note, hpc]
    exact h.slice hpc hpoint
  | @again realDt hpc _ hne =>
    simp only [note, hpc]
    rw [hpc] at hsliced
    simp only [Pc.Sliced, if_neg hne] at hsliced
    exact h.move ⟨rfl, rfl⟩ h.state rfl (by simp [hpc]) (by simp) (by simp [hpc, Pc.unticked])
      hsliced
  | @wake realDt hpc hdone =>
    simp only [note, hpc]
    rw [hpc] at hsliced
    simp only [Pc.Sliced, if_pos (hdone.resolve_left h.state)] at hsliced
    exact h.move ⟨rfl, rfl⟩ h.state rfl (by simp [hpc]) (by simp) (by simp [hpc, Pc.unticked])
      hsliced
  | @empty exec hpc htake =>
    simp only [note, hpc]
    refine h.tick hpc ?_ (Or.inl rfl)
    rw [(ticks_of_takeTick htake).2]
    rfl
  | @taken taskList exec hpc _ htake =>
    simp only [note, hpc]
    refine h.tick hpc ?_ (Or.inr ⟨taskList, rfl⟩)
    rw [(ticks_of_takeTick htake).2]
  | count hpc =>
    simp only [note, hpc]
    exact h.move ⟨rfl, rfl⟩ h.state rfl (by simp [hpc]) (by simp) (by simp [hpc, Pc.unticked])
      trivial
  | begins hpc =>
    simp only [note, hpc]
    rw [hpc] at hsliced
    exact h.move ⟨rfl, rfl⟩ h.state rfl (by simp [hpc]) (by simp) (by simp [hpc, Pc.unticked])
      hsliced
  | @clock now hpc hpoint =>
    rw [note_eq (by simp)]
    refine ⟨⟨h.configured.options_eq, h.configured.dtCount_eq⟩, h.state, h.joining, hpoint,
      fun hp => absurd hp (by simp), ?_, trivial⟩
    rintro - -
    refine ⟨now, hpoint, rfl, ?_⟩
    simp [h.fresh (Or.inr hpc), Pc.unticked]
  | returns hpc | throws hpc | logged hpc =>
    rw [note_eq (by simp)]
    rw [hpc] at hsliced
    exact h.move ⟨rfl, rfl⟩ h.state rfl (by simp [hpc]) (by simp) (by simp [hpc, Pc.unticked])
      hsliced
  | outerLogged hpc | logThrows hpc =>
    rw [note_eq (by simp)]
    exact h.move ⟨rfl, rfl⟩ h.state rfl (by simp [hpc]) (by simp) (by simp [hpc, Pc.unticked])
      trivial
  | executeAt hexec =>
    rw [note_eq (by simp), executeAt_rest hexec]
    exact ⟨⟨h.configured.options_eq, h.configured.dtCount_eq⟩, h.state, h.joining, h.point, h.fresh,
      h.clock, h.sliced⟩
  | initializeAgain | startRejected _ =>
    rw [note_eq (by simp)]
    exact ⟨⟨h.configured.options_eq, h.configured.dtCount_eq⟩, by simp, h.joining, h.point, h.fresh,
      h.clock, h.sliced⟩
  | start _ hpc =>
    rw [note_eq (by simp)]
    exact ⟨⟨h.configured.options_eq, h.configured.dtCount_eq⟩, by simp, h.joining, h.point,
      fun _ => h.fresh (Or.inl hpc), fun _ hp => absurd rfl hp, trivial⟩
  | shutdownAgain _ | shutdown _ _ => exact absurd rfl hshut
  | join hjoin _ => simp [h.joining] at hjoin

theorem logged_run (hdt : 0 < options.dt)
    (hr : run (recorded TimerLoop.step note) (initial options, {}) es = some (s, log))
    (hshut : .shutdown ∉ es) : Logged options s log := by
  refine run_invariant_of_mem (P := fun p : TimerLoop × SleepLog => Logged options p.1 p.2) ?_
    logged_initial hr
  intro p a q h ha hs
  obtain ⟨hstep, hnote⟩ := recorded_eq_some.mp hs
  rw [← hnote]
  exact h.step hdt (step_cases hstep) fun heq => hshut (heq ▸ ha)

/-- The ticks of the record are the ticks of the wheels, unless the logger throws. -/
theorem Step.ticks_note (hs : Step s a s') (ha : a ≠ .logThrows) (h : log.ticks = s.ticks) :
    (note s a log).ticks = s'.ticks := by
  cases hs with
  | exit hpc _ | enter hpc _ | slice hpc _ | again hpc _ _ | wake hpc _ =>
    simpa [note, hpc, ticks, Pc.InWindow] using h
  | @empty exec hpc htake =>
    have hcount : exec.currentTickCount = s.exec.currentTickCount := by
      rw [(ticks_of_takeTick htake).2]
    simp [note, hpc, ticks, Pc.InWindow, TimeWheelExecutor.countTick, hcount, h]
  | @taken taskList exec hpc _ htake =>
    have hcount : exec.currentTickCount = s.exec.currentTickCount := by
      rw [(ticks_of_takeTick htake).2]
    simp [note, hpc, ticks, Pc.InWindow, hcount, h]
  | count hpc => simpa [note, hpc, ticks, Pc.InWindow, TimeWheelExecutor.countTick] using h
  | begins hpc => simpa [note, hpc, ticks, Pc.InWindow] using h
  | clock hpc _ | returns hpc | throws hpc | logged hpc | outerLogged hpc | start _ hpc =>
    rw [note_eq (by simp)]
    simpa [hpc, ticks, Pc.InWindow] using h
  | logThrows _ => exact absurd rfl ha
  | executeAt hexec =>
    rw [note_eq (by simp), ticks_executeAt hexec]
    exact h
  | initializeAgain | startRejected _ | shutdownAgain _ | shutdown _ _ =>
    rw [note_eq (by simp)]
    exact h
  | join _ hpc =>
    rw [note_eq (by simp)]
    rcases hpc with hpc | hpc <;> simpa [hpc, ticks, Pc.InWindow] using h

theorem ticks_run (hr : run (recorded TimerLoop.step note) (initial options, {}) es = some (s, log))
    (hlog : .logThrows ∉ es) : log.ticks = s.ticks := by
  refine run_invariant_of_mem (P := fun p : TimerLoop × SleepLog => p.2.ticks = p.1.ticks) ?_ ?_ hr
  · intro p a q h ha hs
    obtain ⟨hstep, hnote⟩ := recorded_eq_some.mp hs
    rw [← hnote]
    exact (step_cases hstep).ticks_note (fun heq => hlog (heq ▸ ha)) h
  · rfl

end TimerLoop

/-! ## The inner loop ends -/

/-- The loop is before the tick of a pass, with no more than `dt` to sleep. -/
def Pc.Dozes (dt : ℤ) : Pc → Prop
  | .head => True
  | .sleep realDt => 0 < realDt ∧ realDt ≤ dt
  | .woken realDt => 0 ≤ realDt ∧ realDt ≤ dt
  | _ => False

/-- The steps of the timer thread up to the next tick. -/
def Pc.loopsLeft (dt : ℤ) : Pc → ℕ
  | .head => 2 * slices dt + 1
  | .sleep realDt => 2 * slices realDt
  | .woken realDt => 2 * slices realDt + 1
  | _ => 0

namespace TimerLoop

variable {options : Options} {s s' u : TimerLoop} {log : SleepLog} {a : Act} {es : List Act}

/-- The loop sleeps, and `Shutdown` has not been called. -/
structure Dozing (options : Options) (s : TimerLoop) : Prop where
  configured : Configured options s
  state : s.exec.state ≠ .shutdown
  joining : s.joining = false
  pc : s.pc.Dozes options.dt

theorem Dozing.loopsLeft_pos (h : Dozing options s) : 0 < s.pc.loopsLeft options.dt := by
  have hpc := h.pc
  cases hp : s.pc <;> simp only [hp, Pc.Dozes] at hpc
  · exact Nat.succ_pos _
  · exact Nat.mul_pos Nat.zero_lt_two (slices_pos hpc.1)
  · exact Nat.succ_pos _

/-- A step of the timer thread brings the tick nearer by one, and no other step matters. -/
theorem Dozing.step (hdt : 0 < options.dt) (h : Dozing options s) (hs : Step s a s')
    (hshut : a ≠ .shutdown) (hlock : s'.pc ≠ .lock) : Dozing options s' ∧
      s'.pc.loopsLeft options.dt + [a].count .loop = s.pc.loopsLeft options.dt := by
  have hconf := h.configured.step hs
  have hpc := h.pc
  cases hs with
  | exit _ hstate => exact absurd hstate h.state
  | enter hp _ =>
    refine ⟨⟨hconf, h.state, h.joining, ?_⟩, ?_⟩
    · simp only [Pc.Dozes, h.configured.options_eq]
      exact ⟨hdt, le_refl _⟩
    · simp [hp, Pc.loopsLeft, h.configured.options_eq]
  | @slice realDt hp _ =>
    simp only [hp, Pc.Dozes] at hpc
    rw [h.configured.options_eq, sleepSlice_eq hpc.2] at hconf ⊢
    refine ⟨⟨hconf, h.state, h.joining, ?_⟩, ?_⟩
    · have hmax : 0 < kMaxSleepDt := by decide
      simp only [Pc.Dozes]
      omega
    · simp only [hp, Pc.loopsLeft, List.count_singleton_self]
      cases Int.lt_or_le kMaxSleepDt realDt with
      | inl hmax =>
        rw [slices_of_lt hmax, Int.min_eq_right hmax.le]
        omega
      | inr hle =>
        rw [slices_of_le hpc.1 hle, Int.min_eq_left hle, Int.sub_self, slices_zero]
  | @again realDt hp _ hne =>
    simp only [hp, Pc.Dozes] at hpc
    refine ⟨⟨hconf, h.state, h.joining, ⟨lt_of_le_of_ne hpc.1 (Ne.symm hne), hpc.2⟩⟩, ?_⟩
    simp [hp, Pc.loopsLeft]
  | wake _ _ => exact absurd rfl hlock
  | initializeAgain | startRejected _ =>
    refine ⟨⟨hconf, by simp, h.joining, hpc⟩, ?_⟩
    simp
  | executeAt hexec =>
    rw [executeAt_rest hexec] at hconf ⊢
    refine ⟨⟨hconf, h.state, h.joining, hpc⟩, ?_⟩
    simp
  | shutdownAgain _ | shutdown _ _ => exact absurd rfl hshut
  | join hjoin _ => simp [h.joining] at hjoin
  | empty hp _ | taken hp _ _ | count hp | begins hp | clock hp _ | returns hp | throws hp
    | logged hp | outerLogged hp | logThrows hp | start _ hp =>
    simp [hp, Pc.Dozes] at hpc

/-- **The inner loop ends.** Before the next tick there are no more steps of the timer thread than
its slices need, whatever the other threads do. -/
theorem count_loop_lt (hdt : 0 < options.dt) (h : Dozing options s)
    (hr : run TimerLoop.step s es = some u) (hshut : .shutdown ∉ es)
    (hlock : AllStates TimerLoop.step (fun t => t.pc ≠ .lock) s es) :
    es.count .loop < s.pc.loopsLeft options.dt := by
  induction es generalizing s with
  | nil => exact h.loopsLeft_pos
  | cons a es ih =>
    obtain ⟨t, ht, hr⟩ := run_cons_eq_some.mp hr
    have hlock' := hlock.2 t ht
    have hne : a ≠ .shutdown := fun heq => hshut (heq ▸ List.mem_cons_self)
    obtain ⟨hdoze, hleft⟩ := h.step hdt (step_cases ht) hne hlock'.head
    have hlt := ih hdoze hr (fun hmem => hshut (List.mem_cons_of_mem _ hmem)) hlock'
    rw [← List.singleton_append, List.count_append]
    omega

/-- The timer thread can go on, unless the clock ends before the sleep does. -/
theorem Dozing.exists_step (h : Dozing options s) (hpoint : IsTimePoint s.lastLoopTimePoint)
    (hend : IsTimePoint (s.lastLoopTimePoint + s.pc.remaining options.dt)) :
    ∃ t, TimerLoop.step s .loop = some t := by
  have hpc := h.pc
  cases hp : s.pc <;> simp only [hp, Pc.Dozes] at hpc
  · simp [TimerLoop.step, loopStep, hp, h.state]
  · next realDt =>
    have hslice : IsTimePoint (s.lastLoopTimePoint + (sleepSlice s.exec.options.dt realDt).1) := by
      rw [h.configured.options_eq, sleepSlice_eq hpc.2]
      simp only [hp, Pc.remaining] at hend
      unfold IsTimePoint kMaxSleepDt at *
      omega
    simp only [TimerLoop.step, loopStep, hp, if_pos hslice]
    exact ⟨_, rfl⟩
  · simp only [TimerLoop.step, loopStep, hp]
    split
    · exact ⟨_, rfl⟩
    · exact ⟨_, rfl⟩

/-- What the sleep of the passes does, with the record of the run that leads to the state. -/
structure AddsUp (options : Options) (es : List Act) (s : TimerLoop) (log : SleepLog) : Prop where
  /-- the slices of a pass, when it comes to its tick -/
  slept : s.pc = .lock ∨ s.pc.InWindow → Slept options.dt log.slices
  /-- the clock after `ticks` passes -/
  clock : s.pc = .head → ∃ now, IsTimePoint now ∧ s.exec.startTimePoint = getTimestampNs now ∧
    s.lastLoopTimePoint = now + log.ticks * options.dt
  /-- every pass is counted, if no logger throws -/
  ticks : .logThrows ∉ es → s.pc = .head → log.ticks = s.exec.currentTickCount
  /-- a pass ends, whatever the other threads do meanwhile -/
  ends : s.pc = .head → ∀ fs u, run TimerLoop.step s fs = some u → .shutdown ∉ fs →
    AllStates TimerLoop.step (fun t => t.pc ≠ .lock) s fs →
      fs.count .loop ≤ 2 * Ados.TimeWheel.slices options.dt
  /-- the timer thread can go on until then -/
  goes_on : s.pc.Dozes options.dt →
    IsTimePoint (s.lastLoopTimePoint + s.pc.remaining options.dt) →
      ∃ t, TimerLoop.step s .loop = some t

/-- **The sliced sleep adds up without drift.** In every run without `Shutdown` the inner loop of
each pass ends, its slices are positive and no longer than `kMaxSleepDt`, they are as many as `dt`
needs and their sum is `dt`; and after any number of passes `last_loop_time_point` is the first
reading of the clock and as many times `dt`. -/
theorem sleep_without_drift (hdt : 0 < options.dt)
    (hr : run TimerLoop.step (initial options) es = some s) (hshut : .shutdown ∉ es) :
    ∃ log, run (recorded TimerLoop.step note) (initial options, {}) es = some (s, log) ∧
      AddsUp options es s log := by
  obtain ⟨log, hrec⟩ : ∃ log, run (recorded TimerLoop.step note) (initial options, {}) es =
    some (s, log) := exists_run_recorded _ hr
  have h := logged_run hdt hrec hshut
  have hdoze : s.pc.Dozes options.dt → Dozing options s := fun hpc =>
    ⟨h.configured, h.state, h.joining, hpc⟩
  refine ⟨log, hrec, ?_, ?_, ?_, ?_, ?_⟩
  · intro hpc
    have hsliced := h.sliced
    rcases hpc with hpc | hpc
    · rwa [hpc] at hsliced
    · cases hp : s.pc <;> simp only [hp, Pc.InWindow] at hpc <;> rwa [hp] at hsliced
  · intro hpc
    obtain ⟨now, hnow, hstart, hlast⟩ := h.clock (by simp [hpc]) (by simp [hpc])
    refine ⟨now, hnow, hstart, ?_⟩
    simpa [hpc, Pc.unticked] using hlast
  · intro hlog hpc
    rw [ticks_run hrec hlog, ticks_of_not_window (by simp [hpc, Pc.InWindow])]
  · intro hpc fs u hu hshut' hlock
    have hlt := count_loop_lt hdt (hdoze (by simp [hpc, Pc.Dozes])) hu hshut' hlock
    rw [hpc] at hlt
    exact Nat.lt_succ_iff.mp hlt
  · intro hpc hend
    exact (hdoze hpc).exists_step h.point hend

/-- A pass of two and a half seconds, in three slices. -/
theorem sleep_without_drift_slices :
    ∃ s, run TimerLoop.step (initial { dt := 2500000000, wheelSize := [2] })
        (.start :: .clock 7 :: List.replicate 8 .loop) = some s ∧
      ∃ log, run (recorded TimerLoop.step note) (initial { dt := 2500000000, wheelSize := [2] }, {})
          (.start :: .clock 7 :: List.replicate 8 .loop) = some (s, log) ∧
        AddsUp { dt := 2500000000, wheelSize := [2] }
          (.start :: .clock 7 :: List.replicate 8 .loop) s log := by
  have hval : ((run TimerLoop.step (initial { dt := 2500000000, wheelSize := [2] })
      (.start :: .clock 7 :: List.replicate 8 .loop)).map fun s => s.lastLoopTimePoint) =
        some 2500000007 := by
    decide +kernel
  obtain ⟨s, hs, -⟩ := Option.map_eq_some_iff.mp hval
  exact ⟨s, hs, sleep_without_drift (by decide) hs (by decide)⟩

end TimerLoop

end Ados.TimeWheel
