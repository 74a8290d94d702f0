import Ados.Common.TimeTool
import Ados.TimeWheel.Wheel

/-!
# The time wheel executor

The state of a `TimeWheelExecutor` and its operations, each the effect of the code under
`tick_mutex_` or of a lifecycle call. The tick counter and the cursors, which the code keeps in
64-bit integers, are natural numbers; the time arithmetic of `ExecuteAt` wraps around as in the
code.

## Main definitions

* `Options`, `State`, `TimeWheelExecutor`: the options, the lifecycle states, the executor
* `initializeWith`, `initialized`: `Initialize`, and the executor after it
* `executeAt`: `ExecuteAt`, with the task it filed, if any
* `takeTick`, `countTick`, `timerTick`: the two locked parts of a tick of the timer loop, and both
* `held`: the tasks held by the slots and the map
-/

namespace Ados.TimeWheel

/-- The lifecycle states `kPreInit`, `kInit`, `kStart` and `kShutdown`. -/
inductive State where
  | preInit
  | init
  | start
  | shutdown
  deriving DecidableEq, Repr

/-- `TimeWheelExecutor::Options`, `dt` being a signed 64-bit count of nanoseconds. -/
structure Options where
  bindExecutor : String := ""
  threadSchedPolicy : String := ""
  threadBindCpu : List ℕ := []
  dt : ℤ := 1000 * 1000
  wheelSize : List ℕ := [1000, 600]
  dt_range : -2 ^ 63 ≤ dt ∧ dt < 2 ^ 63 := by decide

namespace Options

/-- `dt` cast to an unsigned 64-bit integer. -/
def dtCount (options : Options) : ℕ := wrap64 options.dt

variable {options : Options}

theorem dtCount_cast (h : 0 ≤ options.dt) : (options.dtCount : ℤ) = options.dt := by
  have hlt := options.dt_range.2
  unfold dtCount wrap64
  omega

theorem dtCount_pos_iff : 0 < options.dtCount ↔ options.dt ≠ 0 := by
  have hrange := options.dt_range
  unfold dtCount wrap64
  omega

end Options

/-- The wheel sizes a hierarchy can run with: a first wheel with a slot, and two slots at least in
every later one, which starts at position `1`. -/
structure ValidSizes (wheelSize : List ℕ) : Prop where
  ne_nil : wheelSize ≠ []
  head_pos : ∀ w ∈ wheelSize.head?, 0 < w
  tail_two : ∀ w ∈ wheelSize.tail, 2 ≤ w

/-- The members of a `TimeWheelExecutor` that its operations read and write. -/
structure TimeWheelExecutor (Task : Type) where
  options : Options := {}
  state : State := .preInit
  dtCount : ℕ := 0
  timingWheelVec : List (TimingWheelTool Task) := []
  timingTaskMap : TimingTaskMap Task := { pos := 0, lists := ∅ }
  startTimePoint : ℕ := 0
  currentTickCount : ℕ := 0

variable {Task : Type}

namespace TimeWheelExecutor

/-- `Initialize` with the options decoded from its node: the executor after the call, and the
message of the exception if it throws. The new state is written before the old one is tested. -/
def initializeWith (s : TimeWheelExecutor Task) (options : Options) :
    TimeWheelExecutor Task × Option String :=
  if s.state = .preInit then
    ({ s with
        state := .init
        options := options
        dtCount := options.dtCount
        timingWheelVec := s.timingWheelVec ++ makeWheels 0 1 options.wheelSize
        timingTaskMap := { s.timingTaskMap with pos := 1 } }, none)
  else ({ s with state := .init }, some "TimeWheelExecutor can only be initialized once.")

/-- A new executor after its first `Initialize`. -/
def initialized (options : Options) : TimeWheelExecutor Task :=
  (initializeWith {} options).1

/-- `ExecuteAt`: the task as it was filed, or `none` if it went to `Execute`, and the executor
after the call. -/
def executeAt (s : TimeWheelExecutor Task) (tp : ℤ) (task : Task) :
    Except Fault (Option (TaskWithTimestamp Task) × TimeWheelExecutor Task) :=
  let virtualTp := wrap64 (getTimestampNs tp - s.startTimePoint)
  if virtualTp < s.currentTickCount * s.dtCount % 2 ^ 64 then .ok (none, s)
  else if s.dtCount = 0 then .error .divByZero
  else
    let diffTickCount := wrap64 (↑(virtualTp / s.dtCount) - s.currentTickCount)
    let entry : TaskWithTimestamp Task := { tickCount := virtualTp / s.dtCount, task := task }
    (locate 0 s.options.wheelSize diffTickCount s.currentTickCount).bind fun place =>
      (put s.timingWheelVec s.timingTaskMap place entry).bind fun r =>
        .ok (some entry, { s with timingWheelVec := r.1, timingTaskMap := r.2 })

/-- The first locked part of a tick: `timing_wheel_vec_[0].Tick()`. -/
def takeTick (s : TimeWheelExecutor Task) :
    Except Fault (TaskList Task × TimeWheelExecutor Task) :=
  (tick s.timingWheelVec s.timingTaskMap).bind fun r =>
    .ok (r.1, { s with timingWheelVec := r.2.1, timingTaskMap := r.2.2 })

/-- The second locked part of a tick: `++current_tick_count_`. -/
def countTick (s : TimeWheelExecutor Task) : TimeWheelExecutor Task :=
  { s with currentTickCount := s.currentTickCount + 1 }

/-- A whole tick, with the list of tasks it runs. -/
def timerTick (s : TimeWheelExecutor Task) :
    Except Fault (TaskList Task × TimeWheelExecutor Task) :=
  s.takeTick.bind fun r => .ok (r.1, r.2.countTick)

end TimeWheelExecutor

/-! ## Contents -/

/-- The tasks in the slots of the wheels. -/
def heldInWheels (vec : List (TimingWheelTool Task)) : Multiset (TaskWithTimestamp Task) :=
  (vec.map fun w => Bag.slots w.wheel).sum

/-- The tasks in the slots of the wheels and in the lists of the map. -/
def held (vec : List (TimingWheelTool Task)) (m : TimingTaskMap Task) :
    Multiset (TaskWithTimestamp Task) :=
  heldInWheels vec + Bag.keyed m.lists

/-- The positions of the wheels, as an odometer. -/
def digits (vec : List (TimingWheelTool Task)) : List Digit :=
  vec.map fun w => ⟨w.currentPos, w.wheel.length⟩

end Ados.TimeWheel
