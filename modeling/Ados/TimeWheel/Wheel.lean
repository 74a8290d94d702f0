import Ados.Lib.Bag
import Ados.Lib.Odometer

/-!
# The wheels and their overflow map

The hierarchy of a `TimeWheelExecutor`: one `TimingWheelTool` for each entry of `wheel_size`, and
`timing_task_map_`, which holds what is too far ahead for the last wheel. `Tick` of a wheel empties
the slot at its cursor and moves the cursor; a cursor that wraps calls the wheel's `borrow_func`,
which ticks the next wheel or, on the last wheel, re-files the list of the map at
`timing_task_map_pos_`.

A level is modelled with the list of the levels above it, so that the recursion of `Tick` through
`borrow_func` is a recursion over that list.

## Main definitions

* `TimingWheelTool`, `TimingTaskMap`: a wheel, and the overflow map with its cursor
* `tick`, `borrowFunc`: `Tick` of the first of a list of wheels, and its `borrow_func`
* `Ticked vec i`: the wheel `i` is ticked by a `Tick` of the first wheel
* `makeWheels`: the wheels that `Initialize` creates
* `Place`, `locate`, `put`: where `ExecuteAt` files a task
-/

namespace Ados.TimeWheel

/-- What has no defined behaviour: an index out of range, and a division by zero. -/
inductive Fault where
  | outOfRange
  | divByZero
  deriving DecidableEq, Repr

/-- A task and the tick, counted from the start time, at which it is due. -/
structure TaskWithTimestamp (Task : Type) where
  tickCount : ℕ
  task : Task
  deriving DecidableEq, Repr

abbrev TaskList (Task : Type) := List (TaskWithTimestamp Task)

/-- One wheel. Its `borrow_func` is the function `borrowFunc` at its level. -/
structure TimingWheelTool (Task : Type) where
  currentPos : ℕ
  scale : ℕ
  wheel : List (TaskList Task)
  deriving DecidableEq, Repr

/-- `timing_task_map_pos_` and `timing_task_map_`. -/
structure TimingTaskMap (Task : Type) where
  pos : ℕ
  lists : AList fun _ : ℕ => TaskList Task

variable {Task : Type}

namespace TimingWheelTool

/-- The first half of `Tick`: swap the list at the cursor out, and move the cursor. -/
def take (w : TimingWheelTool Task) : Except Fault (TaskList Task × TimingWheelTool Task) :=
  match w.wheel[w.currentPos]? with
  | none => .error .outOfRange
  | some taskList =>
    .ok (taskList, { w with wheel := w.wheel.set w.currentPos [], currentPos := w.currentPos + 1 })

/-- `wheel[pos].emplace_back(task)`. -/
def emplaceBack (w : TimingWheelTool Task) (pos : ℕ) (task : TaskWithTimestamp Task) :
    Except Fault (TimingWheelTool Task) :=
  match w.wheel[pos]? with
  | none => .error .outOfRange
  | some taskList => .ok { w with wheel := w.wheel.set pos (taskList ++ [task]) }

/-- The slot `tick_count % scale` that the last level's `borrow_func` chooses for a task. -/
def refileIndex (w : TimingWheelTool Task) (task : TaskWithTimestamp Task) : ℕ :=
  task.tickCount % w.scale

/-- The loop of the last level's `borrow_func`: splice each task of the list, from its front, to the
end of the slot `refileIndex`. -/
def refile (w : TimingWheelTool Task) : TaskList Task → Except Fault (TimingWheelTool Task)
  | [] => .ok w
  | task :: taskList =>
    if w.scale = 0 then .error .divByZero
    else (w.emplaceBack (w.refileIndex task) task).bind fun w => w.refile taskList

end TimingWheelTool

/-- The map side of the last level's `borrow_func`: look up the cursor, move it, and take the list
found out of the map. -/
def TimingTaskMap.borrow (m : TimingTaskMap Task) : TaskList Task × TimingTaskMap Task :=
  (Bag.taken m.lists m.pos, { pos := m.pos + 1, lists := m.lists.erase m.pos })

/-- `borrow_func` of the wheel `w` with the wheels `above` it, `ticked` being the outcome of the
`Tick` of the next wheel. The list that the next wheel's `Tick` returns is a local of the function
and goes out of scope with it; only the last level re-files what it takes. -/
def borrowFunc (ticked : Except Fault (TaskList Task × List (TimingWheelTool Task) ×
      TimingTaskMap Task))
    (w : TimingWheelTool Task) (above : List (TimingWheelTool Task)) (m : TimingTaskMap Task) :
    Except Fault (TimingWheelTool Task × List (TimingWheelTool Task) × TimingTaskMap Task) :=
  match above with
  | _ :: _ => ticked.bind fun r => .ok (w, r.2.1, r.2.2)
  | [] => (w.refile m.borrow.1).bind fun w => .ok (w, [], m.borrow.2)

/-- `Tick` of the first wheel of a list: the list of its slot, and the wheels and the map after
it. -/
def tick : List (TimingWheelTool Task) → TimingTaskMap Task →
    Except Fault (TaskList Task × List (TimingWheelTool Task) × TimingTaskMap Task)
  | [], _ => .error .outOfRange
  | w :: above, m =>
    w.take.bind fun r =>
      if r.2.currentPos = r.2.wheel.length then
        (borrowFunc (tick above m) { r.2 with currentPos := 0 } above m).bind fun b =>
          .ok (r.1, b.1 :: b.2.1, b.2.2)
      else .ok (r.1, r.2 :: above, m)

/-- The wheels that `Initialize` creates for the sizes of a list, with the scale reached so far: the
first starts at `startPos`, every later one at `1`. -/
def makeWheels : (startPos curScale : ℕ) → List ℕ → List (TimingWheelTool Task)
  | _, _, [] => []
  | startPos, curScale, size :: wheelSize =>
    { currentPos := startPos
      scale := curScale * size % 2 ^ 64
      wheel := List.replicate size [] } :: makeWheels 1 (curScale * size % 2 ^ 64) wheelSize

/-- The `Tick` of the first wheel of a list calls the `Tick` of the wheel `i`: every cursor below it
is at the last slot of its wheel. -/
def Ticked : List (TimingWheelTool Task) → ℕ → Prop
  | [], _ => False
  | _ :: _, 0 => True
  | w :: above, i + 1 => w.currentPos + 1 = w.wheel.length ∧ Ticked above i

instance decidableTicked : ∀ (vec : List (TimingWheelTool Task)) (i : ℕ), Decidable (Ticked vec i)
  | [], _ => isFalse id
  | _ :: _, 0 => isTrue trivial
  | w :: above, i + 1 =>
    have := decidableTicked above i
    inferInstanceAs (Decidable (w.currentPos + 1 = w.wheel.length ∧ Ticked above i))

/-! ## Filing -/

/-- Where a task is filed: a slot of the wheel `ii`, or the list of the map at a key. -/
inductive Place where
  | slot (ii pos : ℕ)
  | map (key : ℕ)
  deriving DecidableEq, Repr

/-- The loop of `ExecuteAt` from the level `ii` on, with the sizes not yet tried and the running
values of `diff_tick_count` and `tmp_current_tick_count`. -/
def locate (ii : ℕ) : (wheelSize : List ℕ) → (diff tmp : ℕ) → Except Fault Place
  | [], diff, tmp => .ok (.map ((diff + tmp) % 2 ^ 64))
  | size :: wheelSize, diff, tmp =>
    if diff < size then .ok (.slot ii ((diff + tmp) % 2 ^ 64 % size))
    else if size = 0 then .error .divByZero
    else locate (ii + 1) wheelSize (diff / size) (tmp / size)

/-- Append a task at a place. -/
def put (vec : List (TimingWheelTool Task)) (m : TimingTaskMap Task) (place : Place)
    (task : TaskWithTimestamp Task) :
    Except Fault (List (TimingWheelTool Task) × TimingTaskMap Task) :=
  match place with
  | .map key => .ok (vec, { m with lists := Bag.emplaceBack m.lists key task })
  | .slot ii pos =>
    match vec[ii]? with
    | none => .error .outOfRange
    | some w => (w.emplaceBack pos task).bind fun w => .ok (vec.set ii w, m)

end Ados.TimeWheel
