import ArtemisLight.Engine.Driver
import ArtemisLight.Lib.Channel
import ArtemisLight.Types

/-!
# The engine

The tasks that the engine runs, with the two channels between them and the two tokens.  A task is
cut at its awaits, and `Engine.step` is what one task does from one await to the next, so that a
list of acts is one interleaving of the tasks.  The channels are of any kind; their capacities are
those they are built with, which may exceed the configured ones.  The action stream of an event is
the list of what it yields; log lines are left out.
-/

namespace ArtemisLight

/-! ### Consumers -/

/-- What a poll of a consumer's stream gives. -/
inductive Polled (C : Channel) (α : Type) where
  | received (r : Received α) (receiver : C.Receiver)
  | ended
  | pending

/-- A poll of the stream that a consumer makes of its receiver: the token comes first, a closed
channel is drained.  A lag is logged and skipped. -/
def intoStream {C : Channel} {α : Type} (channel : C.Of α) (closed cancelled : Bool)
    (receiver : C.Receiver) : Polled C α :=
  if cancelled then .ended
  else match C.recv channel receiver with
    | some (r, receiver) => .received r receiver
    | none => if closed then .ended else .pending

namespace StrategyTask

/-- Where a strategy's task awaits. -/
inductive Status (E A : Type) where
  /-- Not spawned yet. -/
  | unsynced
  /-- `events.next()` -/
  | waiting
  /-- `strategy.process_event(event)` -/
  | processing (event : E)
  /-- `actions.next()`, of which these are left. -/
  | draining (actions : List A)
  | stopped
  deriving DecidableEq

def Status.isStopped {E A : Type} : Status E A → Bool
  | .stopped => true
  | _ => false

def Status.isUnsynced {E A : Type} : Status E A → Bool
  | .unsynced => true
  | _ => false

end StrategyTask

structure StrategyTask (C : Channel) (S E A : Type) where
  strategy : S
  events : C.Receiver
  status : StrategyTask.Status E A

namespace ExecutorTask

/-- Where an executor's task awaits. -/
inductive Status (A : Type) where
  /-- `actions.next()` -/
  | waiting
  /-- `executor.execute(action)` -/
  | executing (action : A)
  | stopped
  deriving DecidableEq

end ExecutorTask

structure ExecutorTask (C : Channel) (τ A : Type) where
  executor : τ
  actions : C.Receiver
  status : ExecutorTask.Status A

namespace ObserverTask

/-- Where an observer's task awaits. -/
inductive Status (E A : Type) where
  /-- Both streams, of which one or both may have ended. -/
  | waiting (eventsEnded actionsEnded : Bool)
  | observing (observed : E ⊕ A) (eventsEnded actionsEnded : Bool)
  | stopped
  deriving DecidableEq

end ObserverTask

structure ObserverTask (C : Channel) (ω E A : Type) where
  observer : ω
  events : C.Receiver
  actions : C.Receiver
  status : ObserverTask.Status E A

/-! ### The engine -/

namespace Engine

/-- How far `Engine.run` has come. -/
inductive Phase where
  /-- The strategies are synced one after the other. -/
  | starting
  /-- The collectors are spawned, and the handle is returned. -/
  | running
  /-- This error is returned, and all tasks are aborted. -/
  | failed (error : Error)
  deriving DecidableEq

def Phase.hasFailed : Phase → Bool
  | .failed _ => true
  | _ => false

/-- What is seen of a step. -/
inductive Happening (E A : Type) where
  /-- A collector's driver sends an event. -/
  | event (collector : Nat) (event : E)
  /-- A strategy's task sends an action. -/
  | action (strategy : Nat) (action : A)
  | strategyGiven (strategy : Nat) (given : Received E)
  | executorGiven (executor : Nat) (given : Received A)
  | observerGivenEvent (observer : Nat) (given : Received E)
  | observerGivenAction (observer : Nat) (given : Received A)
  | cancelled (token : Token)
  deriving DecidableEq

/-- One step of one task. -/
inductive Act (E : Type) where
  /-- The next strategy's `sync_state` returns. -/
  | sync
  /-- The token is seen cancelled while a strategy is syncing. -/
  | syncCancelled
  | spawnCollectors
  /-- The caller cancels the token of the handle. -/
  | shutdown
  | driver (collector : Nat) (signal : Driver.Signal E)
  | strategy (strategy : Nat)
  | executor (executor : Nat)
  /-- An observer polls its events, or its actions. -/
  | observer (observer : Nat) (events : Bool)
  deriving DecidableEq

end Engine

/-- The tasks, the channels and the tokens. -/
structure Engine (C : Channel) (S τ ω E A : Type) where
  phase : Engine.Phase
  collectors : Nat
  config : ReconnectConfig
  events : C.Of E
  actions : C.Of A
  fatal : Bool
  root : Bool
  drivers : List Driver
  strategies : List (StrategyTask C S E A)
  executors : List (ExecutorTask C τ A)
  observers : List (ObserverTask C ω E A)

namespace Engine

variable {C : Channel} {S τ ω E A : Type}

/-- What is left of a step that a consumer takes part in. -/
abbrev Step (C : Channel) (S τ ω E A : Type) := Option (List (Happening E A) × Engine C S τ ω E A)

/-- Every receiver is subscribed before anything can be sent. -/
def start (collectors : Nat) (config : ReconnectConfig) (eventCapacity actionCapacity : Nat)
    (strategies : List S) (executors : List τ) (observers : List ω) : Engine C S τ ω E A where
  phase := .starting
  collectors := collectors
  config := config
  events := C.new eventCapacity
  actions := C.new actionCapacity
  fatal := false
  root := false
  drivers := []
  strategies := strategies.map fun strategy =>
    ⟨strategy, C.subscribe (C.new eventCapacity : C.Of E), .unsynced⟩
  executors := executors.map fun executor =>
    ⟨executor, C.subscribe (C.new actionCapacity : C.Of A), .waiting⟩
  observers := observers.map fun observer =>
    ⟨observer, C.subscribe (C.new eventCapacity : C.Of E),
      C.subscribe (C.new actionCapacity : C.Of A), .waiting false false⟩

/-- No sender of events is left: `run` has dropped its own, and every driver has returned. -/
def eventsClosed (engine : Engine C S τ ω E A) : Bool :=
  engine.phase = .running && engine.drivers.all fun driver => driver.awaiting.isNone

/-- No sender of actions is left. -/
def actionsClosed (engine : Engine C S τ ω E A) : Bool :=
  engine.phase = .running && engine.strategies.all fun task => task.status.isStopped

/-! ### The steps -/

/-- The next strategy syncs, and its task is spawned. -/
def sync [Strategy S E A] (engine : Engine C S τ ω E A) : Step C S τ ω E A :=
  match engine.phase, engine.strategies.findIdx? (fun task => task.status.isUnsynced) with
  | .starting, some j =>
    match engine.strategies[j]? with
    | none => none
    | some task =>
      match (Strategy.syncState E A task.strategy : Except Error Unit × S) with
      | (.ok _, strategy) => some ([], { engine with
          strategies := engine.strategies.set j { task with strategy, status := .waiting } })
      | (.error e, _) => some ([], { engine with phase := .failed e })
  | _, _ => none

def syncCancelled (engine : Engine C S τ ω E A) : Step C S τ ω E A :=
  if engine.phase = .starting ∧ engine.root = true ∧
      engine.strategies.any (fun task => task.status.isUnsynced) then
    some ([], { engine with phase := .failed "engine cancelled during strategy sync" })
  else none

/-- Once every strategy is synced, the collectors' drivers start. -/
def spawnCollectors (engine : Engine C S τ ω E A) : Step C S τ ω E A :=
  if engine.phase = .starting ∧
      engine.strategies.all (fun task => !task.status.isUnsynced) then
    some ([], { engine with
      phase := .running
      drivers := List.replicate engine.collectors (Driver.new engine.config) })
  else none

def shutdown (engine : Engine C S τ ω E A) : Step C S τ ω E A :=
  if engine.phase = .running then some ([.cancelled .root], { engine with root := true }) else none

/-- Whether a driver's await can give a signal.  Its token is a child of the root token, and is
looked at first while the driver subscribes. -/
def admits (root : Bool) : Driver.Signal E → Bool
  | .cancelled => root
  | .subscribed | .subscribeFailed => !root
  | _ => true

/-- One effect of a driver. -/
def perform (i : Nat) (engine : Engine C S τ ω E A) (effect : Driver.Effect E) :
    List (Happening E A) × Engine C S τ ω E A :=
  match effect with
  | .send event => ([.event i event], { engine with events := C.send engine.events event })
  | .cancel .fatal => ([.cancelled .fatal], { engine with fatal := true })
  | .cancel .root => ([.cancelled .root], { engine with root := true })
  | .sleep _ | .exit => ([], engine)

def performAll (i : Nat) (engine : Engine C S τ ω E A) : List (Driver.Effect E) →
    List (Happening E A) × Engine C S τ ω E A
  | [] => ([], engine)
  | effect :: effects =>
    let (h, engine) := perform i engine effect
    let (hs, engine) := performAll i engine effects
    (h ++ hs, engine)

def driverStep (engine : Engine C S τ ω E A) (i : Nat) (signal : Driver.Signal E) :
    Step C S τ ω E A :=
  match engine.drivers[i]? with
  | none => none
  | some driver =>
    if admits engine.root signal then
      (driver.resume signal).map fun (effects, driver) =>
        performAll i { engine with drivers := engine.drivers.set i driver } effects
    else none

def strategyStep [Strategy S E A] (engine : Engine C S τ ω E A) (j : Nat) : Step C S τ ω E A :=
  match engine.strategies[j]? with
  | none => none
  | some task =>
    let put (task : StrategyTask C S E A) : Engine C S τ ω E A :=
      { engine with strategies := engine.strategies.set j task }
    match task.status with
    | .unsynced | .stopped => none
    | .waiting =>
      match intoStream engine.events engine.eventsClosed engine.root task.events with
      | .received (.item event) events => some ([.strategyGiven j (.item event)],
          put { task with events, status := .processing event })
      | .received (.lagged n) events =>
        some ([.strategyGiven j (.lagged n)], put { task with events })
      | .ended => some ([], put { task with status := .stopped })
      | .pending => none
    | .processing event =>
      match (Strategy.processEvent task.strategy event : Except Error (List A) × S) with
      | (.ok actions, strategy) =>
        some ([], put { task with strategy, status := .draining actions })
      | (.error _, strategy) => some ([], put { task with strategy, status := .waiting })
    | .draining actions =>
      -- a cancelled token ends the action stream, and then the event stream
      if engine.root then some ([], put { task with status := .stopped })
      else match actions with
        | [] => some ([], put { task with status := .waiting })
        | action :: actions => some ([.action j action],
            { put { task with status := .draining actions } with
              actions := C.send engine.actions action })

def executorStep [Executor τ A] (engine : Engine C S τ ω E A) (k : Nat) : Step C S τ ω E A :=
  match engine.executors[k]? with
  | none => none
  | some task =>
    let put (task : ExecutorTask C τ A) : Engine C S τ ω E A :=
      { engine with executors := engine.executors.set k task }
    match task.status with
    | .stopped => none
    | .waiting =>
      match intoStream engine.actions engine.actionsClosed engine.root task.actions with
      | .received (.item action) actions => some ([.executorGiven k (.item action)],
          put { task with actions, status := .executing action })
      | .received (.lagged n) actions => some ([.executorGiven k (.lagged n)],
          put { task with actions })
      | .ended => some ([], put { task with status := .stopped })
      | .pending => none
    | .executing action =>
      some ([], put { task with
        executor := (Executor.execute task.executor action).2, status := .waiting })

def observerStep [Observer ω E A] (engine : Engine C S τ ω E A) (m : Nat) (events : Bool) :
    Step C S τ ω E A :=
  match engine.observers[m]? with
  | none => none
  | some task =>
    let put (task : ObserverTask C ω E A) : Engine C S τ ω E A :=
      { engine with observers := engine.observers.set m task }
    match task.status with
    | .stopped => none
    | .waiting eventsEnded actionsEnded =>
      if eventsEnded && actionsEnded then some ([], put { task with status := .stopped })
      else if events then
        if eventsEnded then none
        else match intoStream engine.events engine.eventsClosed engine.root task.events with
          | .received (.item event) receiver => some ([.observerGivenEvent m (.item event)],
              put { task with
                events := receiver, status := .observing (.inl event) eventsEnded actionsEnded })
          | .received (.lagged n) receiver => some ([.observerGivenEvent m (.lagged n)],
              put { task with events := receiver })
          | .ended => some ([], put { task with status := .waiting true actionsEnded })
          | .pending => none
      else
        if actionsEnded then none
        else match intoStream engine.actions engine.actionsClosed engine.root task.actions with
          | .received (.item action) receiver => some ([.observerGivenAction m (.item action)],
              put { task with
                actions := receiver, status := .observing (.inr action) eventsEnded actionsEnded })
          | .received (.lagged n) receiver => some ([.observerGivenAction m (.lagged n)],
              put { task with actions := receiver })
          | .ended => some ([], put { task with status := .waiting eventsEnded true })
          | .pending => none
    | .observing observed eventsEnded actionsEnded =>
      some ([], put { task with
        observer := observed.elim (Observer.observeEvent A task.observer)
          (Observer.observeAction E task.observer)
        status := .waiting eventsEnded actionsEnded })

variable [Strategy S E A] [Executor τ A] [Observer ω E A]

/-- One step of one task; `none` if the task has to wait.  Once `run` has failed there are no
tasks. -/
def step (engine : Engine C S τ ω E A) (act : Act E) : Step C S τ ω E A :=
  if engine.phase.hasFailed then none
  else match act with
    | .sync => engine.sync
    | .syncCancelled => engine.syncCancelled
    | .spawnCollectors => engine.spawnCollectors
    | .shutdown => engine.shutdown
    | .driver i signal => engine.driverStep i signal
    | .strategy j => engine.strategyStep j
    | .executor k => engine.executorStep k
    | .observer m events => engine.observerStep m events

/-- An interleaving of the tasks, with what is seen of it. -/
def run (engine : Engine C S τ ω E A) : List (Act E) → Step C S τ ω E A
  | [] => some ([], engine)
  | act :: acts =>
    match engine.step act with
    | none => none
    | some (h, engine) => (engine.run acts).map fun (hs, engine) => (h ++ hs, engine)

end Engine

end ArtemisLight
