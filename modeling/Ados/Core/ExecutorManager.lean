import Ados.Core.Executor
import Ados.Lib.Run
import Mathlib.Algebra.Order.Ring.Nat
import Mathlib.Data.List.AList

/-!
# The executor manager

`ExecutorManager` with its lifecycle calls, each taken as a whole. `Initialize` checks the list of
executors in one pass and creates them in a second: the main thread executor and the guard thread
executor under the names the first pass has found or under their defaults, then the others in the
order of the list. Every executor is recorded in `used_executor_names_` and handed to
`executor_map_`, whose `emplace` destroys it if the name is taken. The calls write the new state
before they test the old one, and `Initialize` writes it before it has looked at the list.

What the executors throw by themselves is taken from outside, as is the list that the options node
decodes to. `Node` stands for the YAML nodes of the executors' own options.

## Main definitions

* `ExecutorOptions`, `OptionsNode`, `ExecutorManager`: the options, and the manager
* `checkOptions`: the first pass over the list
* `ExecutorManager.add`, `ExecutorManager.addListed`: the creation of one executor
* `ExecutorManager.initializeWith`, `ExecutorManager.start`, `ExecutorManager.shutdown`
* `ExecutorManager.step`: a call whose exception the caller catches
-/

namespace Ados.Core

/-- `ExecutorManager::Options::ExecutorOptions`; there may be no options, a null node. -/
structure ExecutorOptions (Node : Type) where
  name : String
  type : String
  options : Option Node
  deriving DecidableEq, Repr

/-- What `Initialize` is given: a null node, or one for which `as<Options>` throws or gives a
list. -/
inductive OptionsNode (Node : Type) where
  | null
  | throws (what : String)
  | decodes (executorsOptions : List (ExecutorOptions Node))
  deriving DecidableEq, Repr

/-- The list that `options_` has after a node that does not throw. -/
def OptionsNode.executorsOptions {Node : Type} : OptionsNode Node → List (ExecutorOptions Node)
  | .decodes l => l
  | _ => []

/-! ## The check of the options -/

/-- The local variables of the first pass. -/
structure OptionsCheck (Node : Type) where
  mainThreadName : String := "nxpilot_main"
  mainThreadOptions : Option Node := none
  guardThreadName : String := "nxpilot_guard"
  guardThreadOptions : Option Node := none
  idx : ℕ := 0
  detectedMainThreadOptions : Bool := false
  deriving DecidableEq, Repr

variable {Node : Type}

/-- `++idx`, in 32 bits. -/
@[irreducible] def OptionsCheck.nextIdx (c : OptionsCheck Node) : ℕ := (c.idx + 1) % 2 ^ 32

/-- The body of the first pass. -/
def checkOption (c : OptionsCheck Node) (o : ExecutorOptions Node) :
    Except String (OptionsCheck Node) :=
  if o.type = "main_thread" then
    if c.idx = 0 then
      .ok { c with
        mainThreadName := o.name
        mainThreadOptions := o.options
        detectedMainThreadOptions := true
        idx := c.nextIdx }
    else .error "MainThreadExecutor should be the first"
  else if o.type = "guard_thread" then
    if c.idx = 0 ∧ c.detectedMainThreadOptions = false ∨
        c.idx = 1 ∧ c.detectedMainThreadOptions = true then
      .ok { c with
        guardThreadName := o.name
        guardThreadOptions := o.options
        idx := c.nextIdx }
    else
      .error ("GuardThreadExecutor should be the fisrt without MainThreadExecutor, or " ++
        "GuardThreadExecutor should be the second after MainThreadExecutor")
  else .ok { c with idx := c.nextIdx }

/-- The first pass over the list. -/
def checkOptions (l : List (ExecutorOptions Node)) : Except String (OptionsCheck Node) :=
  l.foldlM checkOption {}

theorem checkOptions_concat (l : List (ExecutorOptions Node)) (o : ExecutorOptions Node) :
    checkOptions (l ++ [o]) = (checkOptions l).bind fun c => checkOption c o := by
  rw [checkOptions, List.foldlM_append]
  congr 1
  funext c
  exact bind_pure (checkOption c o)

/-! ## The manager -/

/-- What the `Initialize` of an executor throws beside its own check, if anything. -/
abbrev InitializeFaults (Node : Type) := ExecutorType → String → Option Node → Option String

/-- What the `Start` of the executor of a name throws beside its own check, if anything. -/
abbrev StartFaults := String → Option String

/-- The members of an `ExecutorManager`, and the history: the executors whose own `Initialize` has
returned, and those whose `Shutdown` the manager has called. -/
structure ExecutorManager (Node : Type) where
  options : List (ExecutorOptions Node) := []
  state : State := .preInit
  usedExecutorNames : List String := []
  executorMap : AList fun _ : String => Executor := ∅
  initialized : List Handle := []
  shutdowns : List Handle := []

namespace ExecutorManager

/-- `GetMainThreadExecutor`, `GetGuardThreadExecutor` and `GetTimeWheelExecutor`, after their check
of the state. -/
def newExecutor (m : ExecutorManager Node) (type : ExecutorType) : Executor :=
  { id := m.initialized.length, type := type, name := "" }

/-- `used_executor_names_.push_back`, for an executor whose `Initialize` has returned. -/
def record (name : String) (x : Executor) (m : ExecutorManager Node) : ExecutorManager Node :=
  { m with
    usedExecutorNames := m.usedExecutorNames ++ [name]
    initialized := m.initialized ++ [x.toHandle] }

/-- `executor_map_.emplace`, which destroys the executor if the name is taken. -/
def emplace (name : String) (x : Executor) (m : ExecutorManager Node) :
    Call String (ExecutorManager Node) :=
  -- the name stays in `used_executor_names_` either way
  if name ∈ m.executorMap then x.destroyed (.returns m)
  else .returns { m with executorMap := m.executorMap.insert name x }

/-- An executor is created, initialized and registered. -/
def add (faults : InitializeFaults Node) (type : ExecutorType) (name : String)
    (options : Option Node) (m : ExecutorManager Node) : Call String (ExecutorManager Node) :=
  if m.state = .init then
    match (m.newExecutor type).initializeWith name (faults type name options) with
    | .returns x => (m.record name x).emplace name x
    | .throws x what => x.destroyed (.throws m what)
    | .terminates => .terminates
  else .throws m "Method can only be called when state is 'kInit'."

/-- The body of the second pass over the list. -/
def addListed (faults : InitializeFaults Node) (o : ExecutorOptions Node)
    (m : ExecutorManager Node) : Call String (ExecutorManager Node) :=
  -- these two have been created before
  if o.type = "main_thread" then .returns m
  else if o.type = "guard_thread" then .returns m
  else if o.name ∈ m.executorMap then
    .throws m ("Duplicate executor name '" ++ o.name ++ "'")
  else if o.type = "time_wheel" then m.add faults .timeWheel o.name o.options
  else .throws m ("Invalid executor type '" ++ o.type ++ "'")

/-- `Initialize`, after `options_` has been set. -/
def createExecutors (faults : InitializeFaults Node) (m : ExecutorManager Node) :
    Call String (ExecutorManager Node) :=
  match checkOptions m.options with
  | .error what => .throws m what
  | .ok c =>
    (m.add faults .mainThread c.mainThreadName c.mainThreadOptions).andThen fun m =>
      (m.add faults .guardThread c.guardThreadName c.guardThreadOptions).andThen fun m =>
        Call.forEach (addListed faults) m.options m

/-- `Initialize`. -/
def initializeWith (node : OptionsNode Node) (faults : InitializeFaults Node)
    (m : ExecutorManager Node) : Call String (ExecutorManager Node) :=
  if m.state = .preInit then
    match node with
    | .null => createExecutors faults { m with state := .init }
    | .throws what => .throws { m with state := .init } what
    | .decodes l => createExecutors faults { m with state := .init, options := l }
  else .throws { m with state := .init } "ExecutorManager can only be initialized once."

/-- The executor of a name after a call on it. -/
def update (m : ExecutorManager Node) (name : String) (x : Executor) : ExecutorManager Node :=
  { m with executorMap := m.executorMap.insert name x }

/-- The body of the loop of `Start`. -/
def startExecutor (faults : StartFaults) (name : String) (m : ExecutorManager Node) :
    Call String (ExecutorManager Node) :=
  match m.executorMap.lookup name with
  | none => .throws m ("Missing '" ++ name ++ "' in executor_map_")
  | some x => (x.start (faults name)).map (m.update name)

/-- `Start`. -/
def start (faults : StartFaults) (m : ExecutorManager Node) :
    Call String (ExecutorManager Node) :=
  if m.state = .init then
    Call.forEach (startExecutor faults) m.usedExecutorNames { m with state := .start }
  else .throws { m with state := .start } "Method can only be called when state is 'kInit'."

/-- The body of the loop of `Shutdown`. -/
def shutdownExecutor (name : String) (m : ExecutorManager Node) :
    Call String (ExecutorManager Node) :=
  match m.executorMap.lookup name with
  | none => .throws m ("Missing '" ++ name ++ "' in executor_map_")
  | some x => .returns { m.update name x.shutdown with shutdowns := m.shutdowns ++ [x.toHandle] }

/-- `Shutdown`. -/
def shutdown (m : ExecutorManager Node) : Call String (ExecutorManager Node) :=
  if m.state = .shutdown then .returns m
  else
    Call.forEach shutdownExecutor m.usedExecutorNames.reverse { m with state := .shutdown }

/-- A call on the manager. -/
inductive Act (Node : Type) where
  | initializeWith (node : OptionsNode Node) (faults : InitializeFaults Node)
  | start (faults : StartFaults)
  | shutdown

def call (m : ExecutorManager Node) : Act Node → Call String (ExecutorManager Node)
  | .initializeWith node faults => m.initializeWith node faults
  | .start faults => m.start faults
  | .shutdown => m.shutdown

/-- A call whose exception, if any, the caller catches. -/
def step (m : ExecutorManager Node) (a : Act Node) : Option (ExecutorManager Node) :=
  (m.call a).after

end ExecutorManager

end Ados.Core
