import Ados.Lib.Yaml
import Ados.Common.Timestamps
import Ados.Core.ExecutorManager
import Ados.GuardThread.Machine
import Ados.TimeWheel.Executor

/-!
# The options as YAML nodes

The specializations of `YAML::convert` for the options of the three executors and of their manager.
An `encode` assigns the fields one by one to a null node, a `decode` reads the keys that the node
has and leaves the other fields as they are. `none` stands for a `decode` that does not return: a
conversion throws, or the product of the length of a tick overflows.

The options have the types of the source here; their views are the options of the executors.

## Main definitions

* `YamlNodes`, `LawfulYamlNodes`: what is used of the YAML library, and what is assumed of it
* `MainThreadExecutor.Options`, `GuardThreadExecutor.Options`, `TimeWheelExecutor.Options`,
  `ExecutorManager.Options`: the options, each with its `encode` and `decode`
* `AnyOptions.RoundTrips`: to decode what was encoded gives it back

## Main results

* `MainThreadExecutor.Options.decode_encode` and its like: what decoding makes of encoded options
* `round_trips_iff`: all options round-trip but those of a main thread whose name is not the default
* `optionsNode_encode`: a manager given encoded options takes them as they were
-/

namespace Ados.Core

open Yaml

/-- The nodes and the converters of the YAML library. -/
class YamlNodes (Node : Type) extends Nodes Node where
  string : Convert Node String
  uint32 : Convert Node UInt32
  uint64 : Convert Node UInt64
  uint32s : Convert Node (List UInt32)
  uint64s : Convert Node (List UInt64)

attribute [reducible, instance] YamlNodes.string YamlNodes.uint32 YamlNodes.uint64
  YamlNodes.uint32s YamlNodes.uint64s

/-- A node reads back as it was assigned, and the converters are inverse to each other. -/
class LawfulYamlNodes (Node : Type) [YamlNodes Node] : Prop extends LawfulNodes Node where
  string : LawfulConvert Node String
  uint32 : LawfulConvert Node UInt32
  uint64 : LawfulConvert Node UInt64
  uint32s : LawfulConvert Node (List UInt32)
  uint64s : LawfulConvert Node (List UInt64)

attribute [instance] LawfulYamlNodes.string LawfulYamlNodes.uint32 LawfulYamlNodes.uint64
  LawfulYamlNodes.uint32s LawfulYamlNodes.uint64s

instance : YamlNodes Tree where
  string := inferInstance
  uint32 := inferInstance
  uint64 := inferInstance
  uint32s := inferInstance
  uint64s := inferInstance

instance : LawfulYamlNodes Tree where
  string := inferInstanceAs (LawfulConvert Tree String)
  uint32 := inferInstanceAs (LawfulConvert Tree UInt32)
  uint64 := inferInstanceAs (LawfulConvert Tree UInt64)
  uint32s := inferInstanceAs (LawfulConvert Tree (List UInt32))
  uint64s := inferInstanceAs (LawfulConvert Tree (List UInt64))

variable {Node : Type} [YamlNodes Node]

/-! ## The executors -/

/-- `MainThreadExecutor::Options`. -/
structure MainThreadExecutor.Options where
  name : String := "nxpilot_main"
  threadSchedPolicy : String := ""
  threadBindCpu : List UInt32 := []
  deriving DecidableEq, Repr

def MainThreadExecutor.Options.encode (rhs : MainThreadExecutor.Options) : Node :=
  ofFields [
    ("thread_sched_policy", Yaml.encode rhs.threadSchedPolicy),
    ("thread_bind_cpu", Yaml.encode rhs.threadBindCpu)]

def MainThreadExecutor.Options.decode (node : Node) (rhs : MainThreadExecutor.Options) :
    Option (Bool × MainThreadExecutor.Options) :=
  if isMap node then do
    let threadSchedPolicy ← readOr node "thread_sched_policy" rhs.threadSchedPolicy
    let threadBindCpu ← readOr node "thread_bind_cpu" rhs.threadBindCpu
    return (true, { rhs with threadSchedPolicy, threadBindCpu })
  else return (false, rhs)

/-- `GuardThreadExecutor::Options`. -/
structure GuardThreadExecutor.Options where
  threadSchedPolicy : String := ""
  threadBindCpu : List UInt32 := []
  queueThreshold : UInt32 := 10000
  deriving DecidableEq, Repr

def GuardThreadExecutor.Options.encode (rhs : GuardThreadExecutor.Options) : Node :=
  ofFields [
    ("thread_sched_policy", Yaml.encode rhs.threadSchedPolicy),
    ("thread_bind_cpu", Yaml.encode rhs.threadBindCpu),
    ("queue_threshold", Yaml.encode rhs.queueThreshold)]

def GuardThreadExecutor.Options.decode (node : Node) (rhs : GuardThreadExecutor.Options) :
    Option (Bool × GuardThreadExecutor.Options) :=
  if isMap node then do
    let threadSchedPolicy ← readOr node "thread_sched_policy" rhs.threadSchedPolicy
    let threadBindCpu ← readOr node "thread_bind_cpu" rhs.threadBindCpu
    let queueThreshold ← readOr node "queue_threshold" rhs.queueThreshold
    return (true, { threadSchedPolicy, threadBindCpu, queueThreshold })
  else return (false, rhs)

/-- `TimeWheelExecutor::Options`, `dt` being a signed 64-bit count of nanoseconds. -/
structure TimeWheelExecutor.Options where
  bindExecutor : String := ""
  threadSchedPolicy : String := ""
  threadBindCpu : List UInt32 := []
  dt : ℤ := 1000 * 1000
  wheelSize : List UInt64 := [1000, 600]
  deriving DecidableEq, Repr

def TimeWheelExecutor.Options.encode (rhs : TimeWheelExecutor.Options) : Node :=
  ofFields [
    ("bind_executor", Yaml.encode rhs.bindExecutor),
    ("thread_sched_policy", Yaml.encode rhs.threadSchedPolicy),
    ("thread_bind_cpu", Yaml.encode rhs.threadBindCpu),
    ("dt_us", Yaml.encode (UInt64.ofNat (timestamp 1000 rhs.dt))),
    ("wheel_size", Yaml.encode rhs.wheelSize)]

/-- `if (node["dt_us"]) old = std::chrono::microseconds(node["dt_us"].as<uint64_t>());`. -/
def readDtUs (node : Node) (old : ℤ) : Option ℤ :=
  match get node "dt_us" with
  | some v => (as v).bind fun dtUs : UInt64 => timePoint 1000 dtUs.toNat
  | none => some old

example : timePoint 1000 (2 ^ 64 - 1) = some (-1000) := by decide

def TimeWheelExecutor.Options.decode (node : Node) (rhs : TimeWheelExecutor.Options) :
    Option (Bool × TimeWheelExecutor.Options) :=
  if isMap node then do
    let bindExecutor ← readOr node "bind_executor" rhs.bindExecutor
    let threadSchedPolicy ← readOr node "thread_sched_policy" rhs.threadSchedPolicy
    let threadBindCpu ← readOr node "thread_bind_cpu" rhs.threadBindCpu
    let dt ← readDtUs node rhs.dt
    let wheelSize ← readOr node "wheel_size" rhs.wheelSize
    return (true, { bindExecutor, threadSchedPolicy, threadBindCpu, dt, wheelSize })
  else return (false, rhs)

/-! ## The manager -/

/-- `ExecutorManager::Options::ExecutorOptions`, the node being defined. -/
structure ExecutorManager.Options.ExecutorOptions (Node : Type) where
  name : String
  type : String
  options : Node

/-- `ExecutorManager::Options`. -/
structure ExecutorManager.Options (Node : Type) where
  executorsOptions : List (ExecutorManager.Options.ExecutorOptions Node) := []

namespace ExecutorManager.Options

/-- `executor_node`, in `encode`. -/
def ExecutorOptions.encode (executor : ExecutorOptions Node) : Node :=
  ofFields [
    ("name", Yaml.encode executor.name),
    ("type", Yaml.encode executor.type),
    ("options", executor.options)]

/-- `executor_options`, in `decode`. -/
def ExecutorOptions.decode (executorNode : Node) : Option (ExecutorOptions Node) := do
  let name ← required executorNode "name"
  let type ← required executorNode "type"
  return { name, type, options := (get executorNode "options").getD null }

def encode (rhs : Options Node) : Node :=
  rhs.executorsOptions.foldl (fun node executor => pushAt node "executors" executor.encode)
    (set null "executors" null)

def decode (node : Node) (rhs : Options Node) : Option (Bool × Options Node) :=
  if isMap node then
    match get node "executors" with
    | some executors =>
      -- anything but a sequence counts as an empty list
      if isSequence executors then do
        let executorsOptions ← (elements executors).foldlM (fun l executorNode => do
          let executorOptions ← ExecutorOptions.decode executorNode
          return l ++ [executorOptions]) rhs.executorsOptions
        return (true, { executorsOptions })
      else return (true, rhs)
    | none => return (true, rhs)
  else return (false, rhs)

/-- A null node counts as no options. -/
def ExecutorOptions.view (o : ExecutorOptions Node) : Core.ExecutorOptions Node where
  name := o.name
  type := o.type
  options := if isNull o.options then none else some o.options

end ExecutorManager.Options

/-! ## The options as the executors and the manager see them -/

/-- `node.as<Options>()`, which throws if `decode` returns false. -/
def asOptions {α : Type} (decode : Node → α → Option (Bool × α)) (default : α) (node : Node) :
    Option α :=
  match decode node default with
  | some (true, o) => some o
  | _ => none

def GuardThreadExecutor.Options.view (o : GuardThreadExecutor.Options) : GuardThread.Options where
  threadSchedPolicy := o.threadSchedPolicy
  threadBindCpu := o.threadBindCpu.map UInt32.toNat
  queueThreshold := o.queueThreshold.toNat
  queueThreshold_lt := o.queueThreshold.toNat_lt

/-- Only a `dt` that fits 64 bits has a view; a node gives no other, but it may give a negative one.
-/
def TimeWheelExecutor.Options.view (o : TimeWheelExecutor.Options) : Option TimeWheel.Options :=
  if h : -2 ^ 63 ≤ o.dt ∧ o.dt < 2 ^ 63 then
    some {
      bindExecutor := o.bindExecutor
      threadSchedPolicy := o.threadSchedPolicy
      threadBindCpu := o.threadBindCpu.map UInt32.toNat
      dt := o.dt
      wheelSize := o.wheelSize.map UInt64.toNat
      dt_range := h }
  else none

/-- What `Initialize` of the manager is given, where `as<Options>` throws `what` if it throws. -/
def optionsNode (what : String) (node : Node) : OptionsNode Node :=
  if isNull node then .null
  else
    match asOptions ExecutorManager.Options.decode {} node with
    | some o => .decodes (o.executorsOptions.map ExecutorManager.Options.ExecutorOptions.view)
    | none => .throws what

theorem GuardThreadExecutor.Options.view_default : view {} = {} := rfl

theorem TimeWheelExecutor.Options.view_default : view {} = some {} := rfl

/-! ## Decoding what was encoded -/

section Lawful

variable [LawfulYamlNodes Node]

/-- Everything but the name is decoded; the name is neither encoded nor decoded. -/
theorem MainThreadExecutor.Options.decode_encode (o rhs : MainThreadExecutor.Options) :
    decode (o.encode : Node) rhs = some (true, { o with name := rhs.name }) := by
  have hmap : isMap (o.encode : Node) = true := isMap_ofFields (by simp)
  have hpolicy : readOr (o.encode : Node) "thread_sched_policy" rhs.threadSchedPolicy =
      some o.threadSchedPolicy := readOr_ofFields (by simp [List.lookup_cons]) _
  have hcpu : readOr (o.encode : Node) "thread_bind_cpu" rhs.threadBindCpu =
      some o.threadBindCpu := readOr_ofFields (by simp) _
  rw [decode, if_pos hmap, hpolicy, hcpu]
  rfl

theorem GuardThreadExecutor.Options.decode_encode (o rhs : GuardThreadExecutor.Options) :
    decode (o.encode : Node) rhs = some (true, o) := by
  have hmap : isMap (o.encode : Node) = true := isMap_ofFields (by simp)
  have hpolicy : readOr (o.encode : Node) "thread_sched_policy" rhs.threadSchedPolicy =
      some o.threadSchedPolicy := readOr_ofFields (by simp [List.lookup_cons]) _
  have hcpu : readOr (o.encode : Node) "thread_bind_cpu" rhs.threadBindCpu =
      some o.threadBindCpu := readOr_ofFields (by simp [List.lookup_cons]) _
  have hthreshold : readOr (o.encode : Node) "queue_threshold" rhs.queueThreshold =
      some o.queueThreshold := readOr_ofFields (by simp) _
  rw [decode, if_pos hmap, hpolicy, hcpu, hthreshold]
  rfl

/-- The length of a tick is a whole number of microseconds. -/
structure WholeMicroseconds (dt : ℤ) : Prop where
  isTimePoint : IsTimePoint dt
  dvd : (1000 : ℤ) ∣ dt

/-- The unit conversion of the length of a tick is undone. -/
theorem WholeMicroseconds.timePoint_timestamp {dt : ℤ} (h : WholeMicroseconds dt) :
    timePoint 1000 (UInt64.ofNat (timestamp 1000 dt)).toNat = some dt := by
  have hlt : timestamp 1000 dt < 2 ^ 64 := wrap64_lt _
  rw [UInt64.toNat_ofNat_of_lt' hlt, Ados.timePoint_timestamp h.isTimePoint (by decide), truncated]
  exact congrArg some (Int.tdiv_mul_cancel h.dvd)

theorem TimeWheelExecutor.Options.decode_encode (o rhs : TimeWheelExecutor.Options)
    (h : WholeMicroseconds o.dt) : decode (o.encode : Node) rhs = some (true, o) := by
  have hmap : isMap (o.encode : Node) = true := isMap_ofFields (by simp)
  have hbind : readOr (o.encode : Node) "bind_executor" rhs.bindExecutor =
      some o.bindExecutor := readOr_ofFields (by simp [List.lookup_cons]) _
  have hpolicy : readOr (o.encode : Node) "thread_sched_policy" rhs.threadSchedPolicy =
      some o.threadSchedPolicy := readOr_ofFields (by simp [List.lookup_cons]) _
  have hcpu : readOr (o.encode : Node) "thread_bind_cpu" rhs.threadBindCpu =
      some o.threadBindCpu := readOr_ofFields (by simp [List.lookup_cons]) _
  have hdt : readDtUs (o.encode : Node) rhs.dt = some o.dt := by
    have hget : get (o.encode : Node) "dt_us" =
        some (Yaml.encode (UInt64.ofNat (timestamp 1000 o.dt))) := by
      rw [TimeWheelExecutor.Options.encode, get_ofFields]
      simp [List.lookup_cons]
    rw [readDtUs, hget]
    exact (as_encode_bind _ _).trans h.timePoint_timestamp
  have hsize : readOr (o.encode : Node) "wheel_size" rhs.wheelSize =
      some o.wheelSize := readOr_ofFields (by simp) _
  rw [decode, if_pos hmap, hbind, hpolicy, hcpu, hdt, hsize]
  rfl

namespace ExecutorManager.Options

theorem ExecutorOptions.decode_encode (o : ExecutorOptions Node) : decode o.encode = some o := by
  have hname : required o.encode "name" = some o.name :=
    required_ofFields (by simp [List.lookup_cons])
  have htype : required o.encode "type" = some o.type :=
    required_ofFields (by simp [List.lookup_cons])
  have hoptions : get o.encode "options" = some o.options := by
    rw [ExecutorOptions.encode, get_ofFields]
    simp
  rw [decode, hname, htype, hoptions]
  rfl

/-- The loop of `decode` undoes the loop of `encode`. -/
theorem ExecutorOptions.foldlM_decode_encode (l done : List (ExecutorOptions Node)) :
    (l.map encode).foldlM (fun l executorNode => do
      let executorOptions ← decode executorNode
      return l ++ [executorOptions]) done = some (done ++ l) := by
  induction l generalizing done with
  | nil => exact congrArg some (List.append_nil done).symm
  | cons o l ih =>
    rw [List.map_cons, List.foldlM_cons, decode_encode]
    exact (ih (done ++ [o])).trans (congrArg some (List.append_assoc done [o] l))

/-- An encoded list is a map with the encoded executors in a sequence. -/
theorem encode_spec (o : Options Node) :
    isMap o.encode = true ∧ get o.encode "executors" =
      some ((o.executorsOptions.map ExecutorOptions.encode).foldl pushBack null) := by
  have hassign : Assignable (null : Node) := Or.inl rfl
  rw [encode, ← List.foldl_map (g := fun node v => pushAt node "executors" v)]
  exact get_foldl_pushAt (LawfulNodes.isMap_set _ "executors" null hassign)
    (LawfulNodes.get_set_self _ _ _ hassign) _

/-- What was encoded is appended to the list. -/
theorem decode_encode (o rhs : Options Node) :
    decode o.encode rhs =
      some (true, { executorsOptions := rhs.executorsOptions ++ o.executorsOptions }) := by
  obtain ⟨hmap, hget⟩ := o.encode_spec
  rw [decode, if_pos hmap, hget]
  obtain ⟨l⟩ := o
  cases l with
  | nil =>
    have hseq : isSequence (null : Node) = false := LawfulNodes.isSequence_null
    simp [hseq]
  | cons e l =>
    have hnull : Appendable (null : Node) := Or.inl rfl
    have hseq : isSequence (((e :: l).map ExecutorOptions.encode).foldl pushBack null) = true :=
      isSequence_foldl_pushBack (LawfulNodes.isSequence_pushBack _ _ hnull) _
    simp only [hseq, if_true, elements_foldl_pushBack hnull, LawfulNodes.elements_null,
      List.nil_append]
    rw [ExecutorOptions.foldlM_decode_encode]
    rfl

end ExecutorManager.Options

/-- **A manager that is given encoded options takes them as they were.** -/
theorem optionsNode_encode (what : String) (o : ExecutorManager.Options Node) :
    optionsNode what o.encode =
      .decodes (o.executorsOptions.map ExecutorManager.Options.ExecutorOptions.view) := by
  have hnull : isNull o.encode = false := LawfulNodes.isNull_of_isMap _ o.encode_spec.1
  simp [optionsNode, asOptions, hnull, ExecutorManager.Options.decode_encode]

end Lawful

/-! ## Round trips -/

/-- Options of an executor, or of the manager. -/
inductive AnyOptions (Node : Type) where
  | mainThread (o : MainThreadExecutor.Options)
  | guardThread (o : GuardThreadExecutor.Options)
  | timeWheel (o : TimeWheelExecutor.Options)
  | executorManager (o : ExecutorManager.Options Node)

namespace AnyOptions

/-- The length of the tick, where there is one, is a whole number of microseconds. -/
def WholeTick : AnyOptions Node → Prop
  | .timeWheel o => WholeMicroseconds o.dt
  | _ => True

/-- Decoding what was encoded, into default options, returns true and gives every field back. -/
def RoundTrips : AnyOptions Node → Prop
  | .mainThread o => MainThreadExecutor.Options.decode (o.encode : Node) {} = some (true, o)
  | .guardThread o => GuardThreadExecutor.Options.decode (o.encode : Node) {} = some (true, o)
  | .timeWheel o => TimeWheelExecutor.Options.decode (o.encode : Node) {} = some (true, o)
  | .executorManager o => ExecutorManager.Options.decode o.encode {} = some (true, o)

/-- The name in the options of a main thread is the default one. -/
def DefaultNamed : AnyOptions Node → Prop
  | .mainThread o => o.name = "nxpilot_main"
  | _ => True

/-- **All options round-trip, but those of a main thread whose name is not the default.** -/
theorem round_trips_iff [LawfulYamlNodes Node] (x : AnyOptions Node) (h : x.WholeTick) :
    x.RoundTrips ↔ x.DefaultNamed := by
  cases x with
  | mainThread o =>
    rw [RoundTrips, MainThreadExecutor.Options.decode_encode]
    constructor
    · intro heq
      exact (congrArg MainThreadExecutor.Options.name (Prod.mk.inj (Option.some.inj heq)).2).symm
    · intro hname
      have heq : ({ o with name := "nxpilot_main" } : MainThreadExecutor.Options) = o := by
        rw [← hname]
      exact congrArg (fun o => some (true, o)) heq
  | guardThread o =>
    exact iff_of_true (GuardThreadExecutor.Options.decode_encode o {}) trivial
  | timeWheel o => exact iff_of_true (TimeWheelExecutor.Options.decode_encode o {} h) trivial
  | executorManager o =>
    exact iff_of_true (ExecutorManager.Options.decode_encode o {}) trivial

/-- Options of a time wheel with a tick of three microseconds round-trip. -/
theorem round_trips_three_us : (timeWheel { bindExecutor := "worker", dt := 3000 } :
    AnyOptions Tree).RoundTrips := by
  have hwhole : WholeMicroseconds 3000 := ⟨by decide, by decide⟩
  exact (round_trips_iff (timeWheel { bindExecutor := "worker", dt := 3000 }) hwhole).mpr trivial

/-- A main thread that is not named as by default gets the default name. -/
theorem name_lost :
    MainThreadExecutor.Options.decode (MainThreadExecutor.Options.encode { name := "main" } : Tree)
        {} = some (true, { name := "nxpilot_main" }) ∧
      ¬ (mainThread { name := "main" } : AnyOptions Tree).RoundTrips := by
  have h : MainThreadExecutor.Options.decode
      (MainThreadExecutor.Options.encode { name := "main" } : Tree) {} =
        some (true, { name := "nxpilot_main" }) := by
    decide +kernel
  refine ⟨h, fun heq => ?_⟩
  exact absurd (h.symm.trans heq) (by decide)

end AnyOptions

end Ados.Core
