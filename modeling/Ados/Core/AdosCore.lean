import Ados.Core.Registry

/-!
# The core

`AdosCore` with its configurator and its executor manager. `Initialize` loads the configuration file
and initializes the executor manager from it; `Start` starts both and waits until `Shutdown` has set
`shutdown_promise_`; `ShutdownImpl`, which does its work once, is called at the end of `Start` and
by the destructor. A call may end with an exception at any point, and the caller may go on with any
other call.

`EnterState` writes `state_` and runs hooks; there is no way to register a hook, and no call reads
`state_`, so it is left out. The file system and the YAML parser are outside: what loading a file
gives, what a key of the root node gives, and what each of them throws.

## Main definitions

* `ConfiguratorManager`: the configurator
* `AdosCore`: the core, with where its `Start` is and whether it has been destroyed
* `AdosCore.initializeWith`, `AdosCore.start`, `AdosCore.resume`, `AdosCore.shutdown`,
  `AdosCore.shutdownImpl`, `AdosCore.destroy`: the calls
* `AdosCore.step`: a call whose exception the caller catches
-/

namespace Ados.Core

variable {Node : Type}

/-- `root_options_node_["nxpilot"][key]`, or what it throws. -/
abbrev RootNode (Node : Type) := String → Except String (OptionsNode Node)

/-- The members of a `ConfiguratorManager`. -/
structure ConfiguratorManager (Node : Type) where
  state : State := .preInit
  rootOptionsNode : RootNode Node := fun _ => .ok .null

namespace ConfiguratorManager

/-- `Initialize`, where `load` is what finding and parsing the file gives or throws. -/
def initializeWith (cfgFilePath : String) (load : Except String (RootNode Node))
    (c : ConfiguratorManager Node) : Call String (ConfiguratorManager Node) :=
  if c.state = .preInit then
    if cfgFilePath = "" then .throws { c with state := .init } "Nxpilot start with no cfg file."
    else
      match load with
      | .ok root => .returns { c with state := .init, rootOptionsNode := root }
      | .error what => .throws { c with state := .init } what
  else .throws { c with state := .init } "Configurator manager can only be initialized once."

/-- `Start`. -/
def start (c : ConfiguratorManager Node) : Call String (ConfiguratorManager Node) :=
  if c.state = .init then .returns { c with state := .start }
  else .throws { c with state := .start } "Method can only be called when state is 'Init'."

/-- `Shutdown`. -/
def shutdown (c : ConfiguratorManager Node) : ConfiguratorManager Node :=
  { c with state := .shutdown }

/-- `GetNodeOptionsByKey`. -/
def getNodeOptionsByKey (c : ConfiguratorManager Node) (key : String) :
    Except String (OptionsNode Node) :=
  if c.state = .init then c.rootOptionsNode key
  else .error "Method can only be called when state is 'Init'."

end ConfiguratorManager

/-- The members of an `AdosCore`; whether the future of `shutdown_promise_` has been retrieved,
whether a `Start` waits for it, whether one has run to its end; whether the core has been
destroyed. -/
structure AdosCore (Node : Type) where
  configuratorManager : ConfiguratorManager Node := {}
  executorManager : ExecutorManager Node := {}
  shutdownFlag : Bool := false
  shutdownImplFlag : Bool := false
  futureRetrieved : Bool := false
  waiting : Bool := false
  ended : Bool := false
  destroyed : Bool := false

namespace AdosCore

def withConfigurator (c : AdosCore Node) (cm : ConfiguratorManager Node) : AdosCore Node :=
  { c with configuratorManager := cm }

def withManager (c : AdosCore Node) (m : ExecutorManager Node) : AdosCore Node :=
  { c with executorManager := m }

/-- The second half of `Initialize`. -/
def initializeExecutors (faults : InitializeFaults Node) (c : AdosCore Node) :
    Call String (AdosCore Node) :=
  match c.configuratorManager.getNodeOptionsByKey "executor" with
  | .ok node => (c.executorManager.initializeWith node faults).map c.withManager
  | .error what => .throws c what

/-- `Initialize`. -/
def initializeWith (cfgFilePath : String) (load : Except String (RootNode Node))
    (faults : InitializeFaults Node) (c : AdosCore Node) : Call String (AdosCore Node) :=
  ((c.configuratorManager.initializeWith cfgFilePath load).map c.withConfigurator).andThen
    (initializeExecutors faults)

/-- `StartImpl`. -/
def startImpl (faults : StartFaults) (c : AdosCore Node) : Call String (AdosCore Node) :=
  (c.configuratorManager.start.map c.withConfigurator).andThen fun c =>
    (c.executorManager.start faults).map c.withManager

/-- `shutdown_promise_.get_future()`, up to the wait. -/
def getFuture (c : AdosCore Node) : Call String (AdosCore Node) :=
  if c.futureRetrieved then .throws c "std::future_error: Future already retrieved"
  else .returns { c with futureRetrieved := true, waiting := true }

/-- `Start`, up to the wait for `shutdown_promise_`. -/
def start (faults : StartFaults) (c : AdosCore Node) : Call String (AdosCore Node) :=
  (c.startImpl faults).andThen getFuture

/-- `ShutdownImpl`. -/
def shutdownImpl (c : AdosCore Node) : Call String (AdosCore Node) :=
  if c.shutdownImplFlag then .returns c
  else
    (c.executorManager.shutdown.map { c with shutdownImplFlag := true }.withManager).andThen
      fun c => .returns (c.withConfigurator c.configuratorManager.shutdown)

/-- The rest of `Start`, after the wait. -/
def resume (c : AdosCore Node) : Call String (AdosCore Node) :=
  (shutdownImpl { c with waiting := false }).andThen fun c => .returns { c with ended := true }

/-- `Shutdown`. -/
def shutdown (c : AdosCore Node) : AdosCore Node :=
  { c with shutdownFlag := true }

/-- The members are destroyed, and with them the executors that the map owns. -/
def destroyMembers (c : AdosCore Node) : Call String (AdosCore Node) :=
  if ∃ e ∈ c.executorManager.executorMap.entries, e.2.thread = true then .terminates
  else .returns { c with destroyed := true }

/-- The destructor, which catches what `ShutdownImpl` throws. -/
def destroy (c : AdosCore Node) : Call String (AdosCore Node) :=
  match c.shutdownImpl with
  | .returns c => c.destroyMembers
  | .throws c _ => c.destroyMembers
  | .terminates => .terminates

/-- A call on the core; `resume` is the rest of the `Start` that waits. -/
inductive Act (Node : Type) where
  | initializeWith (cfgFilePath : String) (load : Except String (RootNode Node))
      (faults : InitializeFaults Node)
  | start (faults : StartFaults)
  | resume
  | shutdown
  | destroy

/-- A call whose exception, if any, the caller catches. There is no call on a core that has been
destroyed, and none is destroyed while a `Start` waits. -/
def step (c : AdosCore Node) (a : Act Node) : Option (AdosCore Node) :=
  if c.destroyed then none
  else
    match a with
    | .initializeWith cfgFilePath load faults => (c.initializeWith cfgFilePath load faults).after
    | .start faults => (c.start faults).after
    | .resume => if c.waiting ∧ c.shutdownFlag then c.resume.after else none
    | .shutdown => some c.shutdown
    | .destroy => if c.waiting then none else c.destroy.after

end AdosCore

end Ados.Core
