import ArtemisLight.Engine.Run

/-!
# The steps of the engine

What each act can do to the task that takes it, to the channels and to the tokens.  Every other task
is left as it is.
-/

namespace ArtemisLight

namespace Engine

variable {C : Channel} {S τ ω E A : Type}

/-! ### What is seen -/

namespace Happening

/-- The event that is sent. -/
def event? : Happening E A → Option E
  | .event _ e => some e
  | _ => none

/-- The action that is sent. -/
def action? : Happening E A → Option A
  | .action _ a => some a
  | _ => none

/-- The action that the strategy `j` sends. -/
def actionOf? (j : Nat) : Happening E A → Option A
  | .action j' a => if j' = j then some a else none
  | _ => none

def toStrategy? (j : Nat) : Happening E A → Option (Received E)
  | .strategyGiven j' given => if j' = j then some given else none
  | _ => none

def toExecutor? (k : Nat) : Happening E A → Option (Received A)
  | .executorGiven k' given => if k' = k then some given else none
  | _ => none

def eventToObserver? (m : Nat) : Happening E A → Option (Received E)
  | .observerGivenEvent m' given => if m' = m then some given else none
  | _ => none

def actionToObserver? (m : Nat) : Happening E A → Option (Received A)
  | .observerGivenAction m' given => if m' = m then some given else none
  | _ => none

/-- Events and actions in the order in which the observer `m` is given them. -/
def toObserver? (m : Nat) : Happening E A → Option (Received E ⊕ Received A)
  | .observerGivenEvent m' given => if m' = m then some (.inl given) else none
  | .observerGivenAction m' given => if m' = m then some (.inr given) else none
  | _ => none

end Happening

/-! ### The tasks -/

theorem intoStream_received {α : Type} {channel : C.Of α} {closed cancelled : Bool}
    {receiver receiver' : C.Receiver} {r : Received α}
    (h : intoStream channel closed cancelled receiver = .received r receiver') :
    cancelled = false ∧ C.recv channel receiver = some (r, receiver') := by
  unfold intoStream at h
  cases cancelled with
  | true => exact absurd h (by simp)
  | false =>
    rcases hr : C.recv channel receiver with _ | ⟨r', next⟩
    · rw [hr] at h
      cases closed <;> exact absurd h (by simp)
    · rw [hr] at h
      obtain ⟨rfl, rfl⟩ := Polled.received.inj h
      exact ⟨rfl, rfl⟩

theorem intoStream_ended {α : Type} {channel : C.Of α} {closed cancelled : Bool}
    {receiver : C.Receiver} (h : intoStream channel closed cancelled receiver = .ended) :
    cancelled = true ∨ closed = true ∧ C.recv channel receiver = none := by
  unfold intoStream at h
  cases cancelled with
  | true => exact Or.inl rfl
  | false =>
    rcases hr : C.recv channel receiver with _ | ⟨r', next⟩
    · rw [hr] at h
      cases closed with
      | true => exact Or.inr ⟨rfl, rfl⟩
      | false => exact absurd h (by simp)
    · rw [hr] at h
      exact absurd h (by simp)

theorem intoStream_pending {α : Type} {channel : C.Of α} {closed cancelled : Bool}
    {receiver : C.Receiver} (h : intoStream channel closed cancelled receiver = .pending) :
    cancelled = false ∧ closed = false ∧ C.recv channel receiver = none := by
  unfold intoStream at h
  cases cancelled with
  | true => exact absurd h (by simp)
  | false =>
    rcases hr : C.recv channel receiver with _ | ⟨r', next⟩
    · rw [hr] at h
      cases closed with
      | true => exact absurd h (by simp)
      | false => exact ⟨rfl, rfl, rfl⟩
    · rw [hr] at h
      exact absurd h (by simp)

/-- The status of a strategy that has been given something. -/
def statusGiven : Received E → StrategyTask.Status E A
  | .item event => .processing event
  | .lagged _ => .waiting

/-- What a strategy's task may do: the happenings, the task and the action channel after it. -/
inductive StrategyStepped [Strategy S E A] (engine : Engine C S τ ω E A) (j : Nat)
    (task : StrategyTask C S E A) :
    List (Happening E A) → StrategyTask C S E A → C.Of A → Prop where
  | given (r : Received E) (events : C.Receiver) : task.status = .waiting → engine.root = false →
      C.recv engine.events task.events = some (r, events) →
      StrategyStepped engine j task [.strategyGiven j r]
        { task with events, status := statusGiven r } engine.actions
  | ended : task.status = .waiting →
      engine.root = true ∨ engine.eventsClosed = true ∧ C.recv engine.events task.events = none →
      StrategyStepped engine j task [] { task with status := .stopped } engine.actions
  | processed (event : E) (actions : List A) (strategy : S) : task.status = .processing event →
      Strategy.processEvent task.strategy event = (.ok actions, strategy) →
      StrategyStepped engine j task [] { task with strategy, status := .draining actions }
        engine.actions
  | rejected (event : E) (e : Error) (strategy : S) : task.status = .processing event →
      (Strategy.processEvent task.strategy event : Except Error (List A) × S)
        = (.error e, strategy) →
      StrategyStepped engine j task [] { task with strategy, status := .waiting } engine.actions
  | cut (actions : List A) : task.status = .draining actions → engine.root = true →
      StrategyStepped engine j task [] { task with status := .stopped } engine.actions
  | drained : task.status = .draining [] → engine.root = false →
      StrategyStepped engine j task [] { task with status := .waiting } engine.actions
  | sent (action : A) (actions : List A) : task.status = .draining (action :: actions) →
      engine.root = false →
      StrategyStepped engine j task [.action j action] { task with status := .draining actions }
        (C.send engine.actions action)

theorem strategyStep_cases [Strategy S E A] {engine engine' : Engine C S τ ω E A} {j : Nat}
    {h : List (Happening E A)} (hstep : engine.strategyStep j = some (h, engine')) :
    ∃ task task' actions, engine.strategies[j]? = some task ∧
      StrategyStepped engine j task h task' actions ∧
      engine' = { engine with strategies := engine.strategies.set j task', actions } := by
  unfold strategyStep at hstep
  rcases ht : engine.strategies[j]? with _ | task
  · rw [ht] at hstep
    exact absurd hstep (by simp)
  · rw [ht] at hstep
    simp only at hstep
    refine ⟨task, ?_⟩
    split at hstep
    · exact absurd hstep (by simp)
    · exact absurd hstep (by simp)
    -- waiting: the poll of the event stream
    · rename_i hw
      split at hstep
      · rename_i event events hp
        obtain ⟨rfl, rfl⟩ := Prod.mk.inj (Option.some.inj hstep)
        obtain ⟨hroot, hrecv⟩ := intoStream_received hp
        exact ⟨_, _, rfl, .given (.item event) events hw hroot hrecv, rfl⟩
      · rename_i n events hp
        obtain ⟨rfl, rfl⟩ := Prod.mk.inj (Option.some.inj hstep)
        obtain ⟨hroot, hrecv⟩ := intoStream_received hp
        refine ⟨_, _, rfl, .given (.lagged n) events hw hroot hrecv, ?_⟩
        rw [statusGiven, ← hw]
      · rename_i hp
        obtain ⟨rfl, rfl⟩ := Prod.mk.inj (Option.some.inj hstep)
        exact ⟨_, _, rfl, .ended hw (intoStream_ended hp), rfl⟩
      · exact absurd hstep (by simp)
    -- processing the event
    · rename_i event hw
      split at hstep
      · rename_i actions strategy hp
        obtain ⟨rfl, rfl⟩ := Prod.mk.inj (Option.some.inj hstep)
        exact ⟨_, _, rfl, .processed event actions strategy hw hp, rfl⟩
      · rename_i e strategy hp
        obtain ⟨rfl, rfl⟩ := Prod.mk.inj (Option.some.inj hstep)
        exact ⟨_, _, rfl, .rejected event e strategy hw hp, rfl⟩
    -- sending the actions, until the token is cancelled
    · rename_i actions hw
      cases hroot : engine.root with
      | true =>
        rw [hroot, if_pos rfl] at hstep
        obtain ⟨rfl, rfl⟩ := Prod.mk.inj (Option.some.inj hstep)
        exact ⟨_, _, rfl, .cut actions hw hroot, rfl⟩
      | false =>
        rw [hroot, if_neg (by simp)] at hstep
        cases actions with
        | nil =>
          obtain ⟨rfl, rfl⟩ := Prod.mk.inj (Option.some.inj hstep)
          exact ⟨_, _, rfl, .drained hw hroot, rfl⟩
        | cons action actions =>
          obtain ⟨rfl, rfl⟩ := Prod.mk.inj (Option.some.inj hstep)
          exact ⟨_, _, rfl, .sent action actions hw hroot, rfl⟩

/-- The status of an executor that has been given something. -/
def executorStatusGiven : Received A → ExecutorTask.Status A
  | .item action => .executing action
  | .lagged _ => .waiting

/-- What an executor's task may do. -/
inductive ExecutorStepped [Executor τ A] (engine : Engine C S τ ω E A) (k : Nat)
    (task : ExecutorTask C τ A) : List (Happening E A) → ExecutorTask C τ A → Prop where
  | given (r : Received A) (actions : C.Receiver) : task.status = .waiting → engine.root = false →
      C.recv engine.actions task.actions = some (r, actions) →
      ExecutorStepped engine k task [.executorGiven k r]
        { task with actions, status := executorStatusGiven r }
  | ended : task.status = .waiting →
      engine.root = true ∨ engine.actionsClosed = true ∧ C.recv engine.actions task.actions = none →
      ExecutorStepped engine k task [] { task with status := .stopped }
  | executed (action : A) : task.status = .executing action →
      ExecutorStepped engine k task []
        { task with executor := (Executor.execute task.executor action).2, status := .waiting }

theorem executorStep_cases [Executor τ A] {engine engine' : Engine C S τ ω E A} {k : Nat}
    {h : List (Happening E A)} (hstep : engine.executorStep k = some (h, engine')) :
    ∃ task task', engine.executors[k]? = some task ∧ ExecutorStepped engine k task h task' ∧
      engine' = { engine with executors := engine.executors.set k task' } := by
  unfold executorStep at hstep
  rcases ht : engine.executors[k]? with _ | task
  · rw [ht] at hstep
    exact absurd hstep (by simp)
  · rw [ht] at hstep
    simp only at hstep
    refine ⟨task, ?_⟩
    split at hstep
    · exact absurd hstep (by simp)
    · rename_i hw
      split at hstep
      · rename_i action actions hp
        obtain ⟨rfl, rfl⟩ := Prod.mk.inj (Option.some.inj hstep)
        obtain ⟨hroot, hrecv⟩ := intoStream_received hp
        exact ⟨_, rfl, .given (.item action) actions hw hroot hrecv, rfl⟩
      · rename_i n actions hp
        obtain ⟨rfl, rfl⟩ := Prod.mk.inj (Option.some.inj hstep)
        obtain ⟨hroot, hrecv⟩ := intoStream_received hp
        refine ⟨_, rfl, .given (.lagged n) actions hw hroot hrecv, ?_⟩
        rw [executorStatusGiven, ← hw]
      · rename_i hp
        obtain ⟨rfl, rfl⟩ := Prod.mk.inj (Option.some.inj hstep)
        exact ⟨_, rfl, .ended hw (intoStream_ended hp), rfl⟩
      · exact absurd hstep (by simp)
    · rename_i action hw
      obtain ⟨rfl, rfl⟩ := Prod.mk.inj (Option.some.inj hstep)
      exact ⟨_, rfl, .executed action hw, rfl⟩

/-- The status of an observer that has been given something. -/
def observerStatusGiven (eventsEnded actionsEnded : Bool) :
    Received E ⊕ Received A → ObserverTask.Status E A
  | .inl (.item event) => .observing (.inl event) eventsEnded actionsEnded
  | .inr (.item action) => .observing (.inr action) eventsEnded actionsEnded
  | _ => .waiting eventsEnded actionsEnded

/-- What an observer's task may do. -/
inductive ObserverStepped [Observer ω E A] (engine : Engine C S τ ω E A) (m : Nat)
    (task : ObserverTask C ω E A) : List (Happening E A) → ObserverTask C ω E A → Prop where
  | givenEvent (r : Received E) (events : C.Receiver) (ended : Bool) :
      task.status = .waiting false ended → engine.root = false →
      C.recv engine.events task.events = some (r, events) →
      ObserverStepped engine m task [.observerGivenEvent m r]
        { task with events, status := observerStatusGiven false ended (.inl r) }
  | givenAction (r : Received A) (actions : C.Receiver) (ended : Bool) :
      task.status = .waiting ended false → engine.root = false →
      C.recv engine.actions task.actions = some (r, actions) →
      ObserverStepped engine m task [.observerGivenAction m r]
        { task with actions, status := observerStatusGiven ended false (.inr r) }
  | eventsEnded (ended : Bool) : task.status = .waiting false ended →
      engine.root = true ∨ engine.eventsClosed = true ∧ C.recv engine.events task.events = none →
      ObserverStepped engine m task [] { task with status := .waiting true ended }
  | actionsEnded (ended : Bool) : task.status = .waiting ended false →
      engine.root = true ∨ engine.actionsClosed = true ∧ C.recv engine.actions task.actions = none →
      ObserverStepped engine m task [] { task with status := .waiting ended true }
  | ended : task.status = .waiting true true →
      ObserverStepped engine m task [] { task with status := .stopped }
  | observed (x : E ⊕ A) (eventsEnded actionsEnded : Bool) :
      task.status = .observing x eventsEnded actionsEnded →
      ObserverStepped engine m task []
        { task with
          observer := x.elim (Observer.observeEvent A task.observer)
            (Observer.observeAction E task.observer)
          status := .waiting eventsEnded actionsEnded }

theorem observerStep_cases [Observer ω E A] {engine engine' : Engine C S τ ω E A} {m : Nat}
    {events : Bool} {h : List (Happening E A)}
    (hstep : engine.observerStep m events = some (h, engine')) :
    ∃ task task', engine.observers[m]? = some task ∧ ObserverStepped engine m task h task' ∧
      engine' = { engine with observers := engine.observers.set m task' } := by
  unfold observerStep at hstep
  rcases ht : engine.observers[m]? with _ | task
  · rw [ht] at hstep
    exact absurd hstep (by simp)
  · rw [ht] at hstep
    simp only at hstep
    refine ⟨task, ?_⟩
    -- the observer has stopped, it looks for a message, or it is busy with one
    split at hstep
    · exact absurd hstep (by simp)
    · rename_i eventsEnded actionsEnded hw
      split at hstep
      · rename_i hboth
        obtain ⟨rfl, rfl⟩ := (Bool.and_eq_true _ _).mp hboth
        obtain ⟨rfl, rfl⟩ := Prod.mk.inj (Option.some.inj hstep)
        exact ⟨_, rfl, .ended hw, rfl⟩
      · -- a message is taken from a stream that has not ended
        split at hstep
        · split at hstep
          · exact absurd hstep (by simp)
          · rename_i hopen
            obtain rfl := Bool.eq_false_iff.mpr hopen
            split at hstep
            · rename_i event receiver hp
              obtain ⟨rfl, rfl⟩ := Prod.mk.inj (Option.some.inj hstep)
              obtain ⟨hroot, hrecv⟩ := intoStream_received hp
              exact ⟨_, rfl, .givenEvent (.item event) receiver actionsEnded hw hroot hrecv, rfl⟩
            · rename_i n receiver hp
              obtain ⟨rfl, rfl⟩ := Prod.mk.inj (Option.some.inj hstep)
              obtain ⟨hroot, hrecv⟩ := intoStream_received hp
              refine ⟨_, rfl, .givenEvent (.lagged n) receiver actionsEnded hw hroot hrecv, ?_⟩
              rw [hw]
              rfl
            · rename_i hp
              obtain ⟨rfl, rfl⟩ := Prod.mk.inj (Option.some.inj hstep)
              exact ⟨_, rfl, .eventsEnded actionsEnded hw (intoStream_ended hp), rfl⟩
            · exact absurd hstep (by simp)
        · split at hstep
          · exact absurd hstep (by simp)
          · rename_i hopen
            obtain rfl := Bool.eq_false_iff.mpr hopen
            split at hstep
            · rename_i action receiver hp
              obtain ⟨rfl, rfl⟩ := Prod.mk.inj (Option.some.inj hstep)
              obtain ⟨hroot, hrecv⟩ := intoStream_received hp
              exact ⟨_, rfl, .givenAction (.item action) receiver eventsEnded hw hroot hrecv, rfl⟩
            · rename_i n receiver hp
              obtain ⟨rfl, rfl⟩ := Prod.mk.inj (Option.some.inj hstep)
              obtain ⟨hroot, hrecv⟩ := intoStream_received hp
              refine ⟨_, rfl, .givenAction (.lagged n) receiver eventsEnded hw hroot hrecv, ?_⟩
              rw [hw]
              rfl
            · rename_i hp
              obtain ⟨rfl, rfl⟩ := Prod.mk.inj (Option.some.inj hstep)
              exact ⟨_, rfl, .actionsEnded eventsEnded hw (intoStream_ended hp), rfl⟩
            · exact absurd hstep (by simp)
    · rename_i observed eventsEnded actionsEnded hw
      obtain ⟨rfl, rfl⟩ := Prod.mk.inj (Option.some.inj hstep)
      exact ⟨_, rfl, .observed observed eventsEnded actionsEnded hw, rfl⟩

/-! ### The drivers and the startup -/

/-- What a driver's task may do: at most one event is sent, and the root token is cancelled with the
fatal one. -/
inductive DriverStepped (engine : Engine C S τ ω E A) (i : Nat) (driver driver' : Driver) :
    Engine C S τ ω E A → List (Happening E A) → Prop where
  | quiet : DriverStepped engine i driver driver'
      { engine with drivers := engine.drivers.set i driver' } []
  | sent (event : E) : driver.awaiting = some .next →
      DriverStepped engine i driver driver'
      { engine with
        drivers := engine.drivers.set i driver', events := C.send engine.events event }
      [.event i event]
  | escalated : driver'.awaiting = none →
      DriverStepped engine i driver driver'
      { engine with drivers := engine.drivers.set i driver', fatal := true, root := true }
      [.cancelled .fatal, .cancelled .root]

theorem driverStep_cases {engine engine' : Engine C S τ ω E A} {i : Nat} {signal : Driver.Signal E}
    {h : List (Happening E A)} (hstep : engine.driverStep i signal = some (h, engine')) :
    ∃ driver driver', engine.drivers[i]? = some driver ∧ admits engine.root signal = true ∧
      (∃ effects, driver.resume signal = some (effects, driver')) ∧
      DriverStepped engine i driver driver' engine' h := by
  unfold driverStep at hstep
  rcases hd : engine.drivers[i]? with _ | driver
  · rw [hd] at hstep
    exact absurd hstep (by simp)
  · rw [hd] at hstep
    simp only at hstep
    split at hstep
    · rename_i hadmits
      obtain ⟨⟨effects, driver'⟩, hresume, heq⟩ := Option.map_eq_some_iff.mp hstep
      refine ⟨driver, driver', rfl, hadmits, ⟨effects, hresume⟩, ?_⟩
      -- what a decision of the policy does to the engine: another attempt, or the shutdown
      have hfatal : ∀ decision : Decision × ReconnectPolicy,
          some (Driver.obey decision) = some (effects, driver') →
            DriverStepped engine i driver driver' engine' h := by
        rintro ⟨after | _, policy⟩ hobey
        · obtain ⟨rfl, rfl⟩ := Prod.mk.inj (Option.some.inj hobey)
          obtain ⟨rfl, rfl⟩ := Prod.mk.inj heq
          exact .quiet
        · obtain ⟨rfl, rfl⟩ := Prod.mk.inj (Option.some.inj hobey)
          obtain ⟨rfl, rfl⟩ := Prod.mk.inj heq
          exact .escalated rfl
      unfold Driver.resume at hresume
      split at hresume
      · obtain ⟨rfl, rfl⟩ := Prod.mk.inj (Option.some.inj hresume)
        obtain ⟨rfl, rfl⟩ := Prod.mk.inj heq
        exact .quiet
      · obtain ⟨rfl, rfl⟩ := Prod.mk.inj (Option.some.inj hresume)
        obtain ⟨rfl, rfl⟩ := Prod.mk.inj heq
        exact .quiet
      · exact hfatal _ hresume
      · rename_i event hnext
        obtain ⟨rfl, rfl⟩ := Prod.mk.inj (Option.some.inj hresume)
        obtain ⟨rfl, rfl⟩ := Prod.mk.inj heq
        exact .sent event hnext
      · exact hfatal _ hresume
      · obtain ⟨rfl, rfl⟩ := Prod.mk.inj (Option.some.inj hresume)
        obtain ⟨rfl, rfl⟩ := Prod.mk.inj heq
        exact .quiet
      · exact absurd hresume (by simp)
    · exact absurd hstep (by simp)

/-- The first strategy that is not synced is synced, or `run` fails. -/
theorem sync_cases [Strategy S E A] {engine engine' : Engine C S τ ω E A}
    {h : List (Happening E A)} (hstep : engine.sync = some (h, engine')) :
    h = [] ∧ engine.phase = .starting ∧ ∃ j task, engine.strategies[j]? = some task ∧
      task.status = .unsynced ∧
      (∀ i < j, ∀ t, engine.strategies[i]? = some t → t.status ≠ .unsynced) ∧
      ((∃ u strategy, (Strategy.syncState E A task.strategy : Except Error Unit × S)
          = (.ok u, strategy) ∧ engine' = { engine with
            strategies := engine.strategies.set j { task with strategy, status := .waiting } }) ∨
        ∃ e strategy, (Strategy.syncState E A task.strategy : Except Error Unit × S)
          = (.error e, strategy) ∧ engine' = { engine with phase := .failed e }) := by
  unfold sync at hstep
  split at hstep
  · rename_i j hphase hfind
    obtain ⟨hj, hunsynced, hbefore⟩ := List.findIdx?_eq_some_iff_getElem.mp hfind
    rw [List.getElem?_eq_getElem hj] at hstep
    have hstatus : (engine.strategies[j]).status = .unsynced := by
      cases hs : (engine.strategies[j]).status with
      | unsynced => rfl
      | _ =>
        rw [hs] at hunsynced
        exact absurd hunsynced (by simp [StrategyTask.Status.isUnsynced])
    have hfirst : ∀ i < j, ∀ t, engine.strategies[i]? = some t → t.status ≠ .unsynced := by
      intro i hi t ht hs
      obtain ⟨hlt, rfl⟩ := List.getElem?_eq_some_iff.mp ht
      exact absurd (hbefore i hi) (by simp [hs, StrategyTask.Status.isUnsynced])
    simp only at hstep
    split at hstep
    · rename_i u strategy hs
      obtain ⟨rfl, rfl⟩ := Prod.mk.inj (Option.some.inj hstep)
      exact ⟨rfl, hphase, j, _, List.getElem?_eq_getElem hj, hstatus, hfirst,
        Or.inl ⟨u, strategy, hs, rfl⟩⟩
    · rename_i e strategy hs
      obtain ⟨rfl, rfl⟩ := Prod.mk.inj (Option.some.inj hstep)
      exact ⟨rfl, hphase, j, _, List.getElem?_eq_getElem hj, hstatus, hfirst,
        Or.inr ⟨e, strategy, hs, rfl⟩⟩
  · exact absurd hstep (by simp)

/-! ### Runs -/

section Run

variable [Strategy S E A] [Executor τ A] [Observer ω E A]

theorem run_cons_iff {engine engine' : Engine C S τ ω E A} {act : Act E} {acts : List (Act E)}
    {h : List (Happening E A)} : engine.run (act :: acts) = some (h, engine') ↔
      ∃ x next xs, engine.step act = some (x, next) ∧ next.run acts = some (xs, engine') ∧
        h = x ++ xs := by
  rw [run]
  rcases engine.step act with _ | ⟨x, next⟩
  · simp
  · constructor
    · intro hrun
      obtain ⟨⟨xs, last⟩, hrest, heq⟩ := Option.map_eq_some_iff.mp hrun
      obtain ⟨rfl, rfl⟩ := Prod.mk.inj heq
      exact ⟨x, next, xs, rfl, hrest, rfl⟩
    · rintro ⟨y, next', xs, hs, hrest, rfl⟩
      obtain ⟨rfl, rfl⟩ := Prod.mk.inj (Option.some.inj hs)
      simp only
      rw [hrest]
      rfl

/-- The invariant rule of a run: what holds before the first step, and is preserved by every one,
holds of all that has been seen and of the state after it. -/
theorem run_rule {I : List (Happening E A) → Engine C S τ ω E A → Prop}
    (hstep : ∀ h engine act h' engine', I h engine → engine.step act = some (h', engine') →
      I (h ++ h') engine') {h h' : List (Happening E A)} {engine engine' : Engine C S τ ω E A}
    {acts : List (Act E)} (hI : I h engine) (hrun : engine.run acts = some (h', engine')) :
    I (h ++ h') engine' := by
  induction acts generalizing h h' engine with
  | nil =>
    obtain ⟨rfl, rfl⟩ := Prod.mk.inj (Option.some.inj hrun)
    rwa [List.append_nil]
  | cons act acts ih =>
    obtain ⟨x, next, xs, hs, hrest, rfl⟩ := run_cons_iff.mp hrun
    rw [← List.append_assoc]
    exact ih (hstep h engine act x next hI hs) hrest

theorem run_append {engine engine' last : Engine C S τ ω E A} {acts acts' : List (Act E)}
    {h h' : List (Happening E A)} (hrun : engine.run acts = some (h, engine'))
    (hrun' : engine'.run acts' = some (h', last)) :
    engine.run (acts ++ acts') = some (h ++ h', last) := by
  induction acts generalizing engine h with
  | nil =>
    obtain ⟨rfl, rfl⟩ := Prod.mk.inj (Option.some.inj hrun)
    exact hrun'
  | cons act acts ih =>
    obtain ⟨x, next, xs, hs, hrest, rfl⟩ := run_cons_iff.mp hrun
    exact run_cons_iff.mpr ⟨x, next, xs ++ h', hs, ih hrest, List.append_assoc x xs h'⟩

theorem phase_of_step {engine engine' : Engine C S τ ω E A} {act : Act E} {h : List (Happening E A)}
    (hstep : engine.step act = some (h, engine')) : ¬ engine.phase.hasFailed = true := by
  intro hphase
  unfold step at hstep
  rw [if_pos hphase] at hstep
  exact absurd hstep (by simp)

end Run

end Engine

end ArtemisLight
