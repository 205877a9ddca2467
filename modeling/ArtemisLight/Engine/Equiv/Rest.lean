import ArtemisLight.Engine.Equiv.Fanout

/-!
# The engine at rest

A consumer's stream ends with the root token, or when its channel is closed and drained
(`Orderly`).  So when no consumer can go on and nothing has been cancelled, every message has
reached every consumer, or is counted as missed.
-/

namespace ArtemisLight

namespace Engine

open Happening (event? action? actionOf? toStrategy? toExecutor? eventToObserver?
  actionToObserver? toObserver?)

variable {C : Channel} {S τ ω E A : Type}

/-! ### Closed channels -/

/-- The observer's stream of events has ended. -/
def noEvents : ObserverTask.Status E A → Bool
  | .waiting eventsEnded _ | .observing _ eventsEnded _ => eventsEnded
  | .stopped => true

/-- The observer's stream of actions has ended. -/
def noActions : ObserverTask.Status E A → Bool
  | .waiting _ actionsEnded | .observing _ _ actionsEnded => actionsEnded
  | .stopped => true

/-- Nothing is left for a receiver of the events. -/
def EventsOver (engine : Engine C S τ ω E A) (receiver : C.Receiver) : Prop :=
  engine.root = true ∨ engine.eventsClosed = true ∧ C.recv engine.events receiver = none

/-- Nothing is left for a receiver of the actions. -/
def ActionsOver (engine : Engine C S τ ω E A) (receiver : C.Receiver) : Prop :=
  engine.root = true ∨ engine.actionsClosed = true ∧ C.recv engine.actions receiver = none

/-- Every strategy has been synced once the engine is running, and a stream that has ended had
nothing left. -/
structure Orderly (engine : Engine C S τ ω E A) : Prop where
  synced : engine.phase = .running → ∀ task ∈ engine.strategies, task.status ≠ .unsynced
  strategy : ∀ task ∈ engine.strategies, task.status = .stopped → engine.EventsOver task.events
  executor : ∀ task ∈ engine.executors, task.status = .stopped → engine.ActionsOver task.actions
  observerEvents : ∀ task ∈ engine.observers, noEvents task.status = true →
    engine.EventsOver task.events
  observerActions : ∀ task ∈ engine.observers, noActions task.status = true →
    engine.ActionsOver task.actions

theorem Orderly.start (collectors : Nat) (config : ReconnectConfig)
    (eventCapacity actionCapacity : Nat) (strategies : List S) (executors : List τ)
    (observers : List ω) :
    (Engine.start collectors config eventCapacity actionCapacity strategies executors observers :
      Engine C S τ ω E A).Orderly := by
  refine ⟨fun hphase => absurd hphase (by simp [Engine.start]), fun task ht hs => ?_,
    fun task ht hs => ?_, fun task ht hs => ?_, fun task ht hs => ?_⟩
  · obtain ⟨strategy, -, rfl⟩ := List.mem_map.mp ht
    exact absurd hs (by simp)
  · obtain ⟨executor, -, rfl⟩ := List.mem_map.mp ht
    exact absurd hs (by simp)
  · obtain ⟨observer, -, rfl⟩ := List.mem_map.mp ht
    exact absurd hs (by simp [noEvents])
  · obtain ⟨observer, -, rfl⟩ := List.mem_map.mp ht
    exact absurd hs (by simp [noActions])

variable {engine engine' : Engine C S τ ω E A} {h : List (Happening E A)} {j k m : Nat}

/-- A step that keeps the consumers, and what is over for them. -/
theorem Orderly.frame (ho : engine.Orderly)
    (hsynced : engine'.phase = .running → ∀ task ∈ engine.strategies, task.status ≠ .unsynced)
    (hstrategies : engine'.strategies = engine.strategies)
    (hexecutors : engine'.executors = engine.executors)
    (hobservers : engine'.observers = engine.observers)
    (hevents : ∀ receiver, engine.EventsOver receiver → engine'.EventsOver receiver)
    (hactions : ∀ receiver, engine.ActionsOver receiver → engine'.ActionsOver receiver) :
    engine'.Orderly := by
  refine ⟨?_, ?_, ?_, ?_, ?_⟩
  · rw [hstrategies]
    exact hsynced
  · rw [hstrategies]
    exact fun task ht hs => hevents _ (ho.strategy task ht hs)
  · rw [hexecutors]
    exact fun task ht hs => hactions _ (ho.executor task ht hs)
  · rw [hobservers]
    exact fun task ht hs => hevents _ (ho.observerEvents task ht hs)
  · rw [hobservers]
    exact fun task ht hs => hactions _ (ho.observerActions task ht hs)

theorem actionsClosed_iff : engine.actionsClosed = true ↔
    engine.phase = .running ∧ ∀ task ∈ engine.strategies, task.status = .stopped := by
  have hstopped : ∀ status : StrategyTask.Status E A,
      status.isStopped = true ↔ status = .stopped := by
    intro status
    cases status <;> simp [StrategyTask.Status.isStopped]
  simp [actionsClosed, hstopped]

theorem eventsClosed_iff : engine.eventsClosed = true ↔
    engine.phase = .running ∧ ∀ driver ∈ engine.drivers, driver.awaiting = none := by
  simp [eventsClosed]

/-- A strategy's task that takes a step has not stopped, so no stream of actions is over unless the
root token is cancelled. -/
theorem Orderly.strategyStep [Strategy S E A] (ho : engine.Orderly)
    (hstep : engine.strategyStep j = some (h, engine')) : engine'.Orderly := by
  obtain ⟨task, task', actions, ht, hs, rfl⟩ := strategyStep_cases hstep
  have hmem := List.mem_of_getElem? ht
  have hlive : task.status ≠ .stopped := by
    cases hs <;> simp_all
  have hactions : ∀ receiver, engine.ActionsOver receiver → engine.root = true := by
    rintro receiver (hroot | ⟨hclosed, -⟩)
    · exact hroot
    · exact absurd ((actionsClosed_iff.mp hclosed).2 task hmem) hlive
  refine ⟨fun hphase t hm => ?_, fun t hm hstopped => ?_,
    fun t hm hstopped => Or.inl (hactions _ (ho.executor t hm hstopped)), ho.observerEvents,
    fun t hm hover => Or.inl (hactions _ (ho.observerActions t hm hover))⟩
  · rcases List.mem_or_eq_of_mem_set hm with hm | rfl
    · exact ho.synced hphase t hm
    · have hsynced := ho.synced hphase task hmem
      cases hs with
      | given r _ _ _ _ => cases r <;> simp [statusGiven]
      | _ => simp
  · rcases List.mem_or_eq_of_mem_set hm with hm | rfl
    · exact ho.strategy t hm hstopped
    · cases hs with
      | given r _ _ _ _ => cases r <;> simp [statusGiven] at hstopped
      | ended _ hover => exact hover
      | cut _ _ hroot => exact Or.inl hroot
      | _ => simp at hstopped

theorem Orderly.executorStep [Executor τ A] (ho : engine.Orderly)
    (hstep : engine.executorStep k = some (h, engine')) : engine'.Orderly := by
  obtain ⟨task, task', ht, hs, rfl⟩ := executorStep_cases hstep
  refine ⟨ho.synced, ho.strategy, fun t hm hstopped => ?_, ho.observerEvents, ho.observerActions⟩
  rcases List.mem_or_eq_of_mem_set hm with hm | rfl
  · exact ho.executor t hm hstopped
  · cases hs with
    | given r _ _ _ _ => cases r <;> simp [executorStatusGiven] at hstopped
    | ended _ hover => exact hover
    | executed _ _ => simp at hstopped

theorem Orderly.observerStep [Observer ω E A] {events : Bool} (ho : engine.Orderly)
    (hstep : engine.observerStep m events = some (h, engine')) : engine'.Orderly := by
  obtain ⟨task, task', ht, hs, rfl⟩ := observerStep_cases hstep
  have hmem := List.mem_of_getElem? ht
  refine ⟨ho.synced, ho.strategy, ho.executor, fun t hm hover => ?_, fun t hm hover => ?_⟩
  · rcases List.mem_or_eq_of_mem_set hm with hm | rfl
    · exact ho.observerEvents t hm hover
    · have hold := ho.observerEvents task hmem
      cases hs with
      | givenEvent r _ _ _ _ _ => cases r <;> simp [observerStatusGiven, noEvents] at hover
      | givenAction r _ _ hw _ _ =>
        cases r <;> exact hold (by rw [hw]; exact hover)
      | eventsEnded _ _ hreason => exact hreason
      | actionsEnded _ hw _ => exact hold (by rw [hw]; exact hover)
      | ended hw => exact hold (by rw [hw]; rfl)
      | observed _ _ _ hw => exact hold (by rw [hw]; exact hover)
  · rcases List.mem_or_eq_of_mem_set hm with hm | rfl
    · exact ho.observerActions t hm hover
    · have hold := ho.observerActions task hmem
      cases hs with
      | givenEvent r _ _ hw _ _ =>
        cases r <;> exact hold (by rw [hw]; exact hover)
      | givenAction r _ _ _ _ _ => cases r <;> simp [observerStatusGiven, noActions] at hover
      | eventsEnded _ hw _ => exact hold (by rw [hw]; exact hover)
      | actionsEnded _ _ hreason => exact hreason
      | ended hw => exact hold (by rw [hw]; rfl)
      | observed _ _ _ hw => exact hold (by rw [hw]; exact hover)

/-- A driver that takes a step has not returned, so no stream of events is over unless the root
token is cancelled. -/
theorem Orderly.driverStep {i : Nat} {signal : Driver.Signal E} (ho : engine.Orderly)
    (hstep : engine.driverStep i signal = some (h, engine')) : engine'.Orderly := by
  obtain ⟨driver, driver', hd, -, ⟨effects, hresume⟩, hs⟩ := driverStep_cases hstep
  have hlive : driver.awaiting ≠ none := by
    intro hnone
    unfold Driver.resume at hresume
    rw [hnone] at hresume
    exact absurd hresume (by simp)
  have hevents : ∀ receiver, engine.EventsOver receiver → engine.root = true := by
    rintro receiver (hroot | ⟨hclosed, -⟩)
    · exact hroot
    · exact absurd ((eventsClosed_iff.mp hclosed).2 driver (List.mem_of_getElem? hd)) hlive
  cases hs with
  | quiet =>
    exact ho.frame ho.synced rfl rfl rfl (fun r hr => Or.inl (hevents r hr)) fun _ hr => hr
  | sent event _ =>
    exact ho.frame ho.synced rfl rfl rfl (fun r hr => Or.inl (hevents r hr)) fun _ hr => hr
  | escalated _ =>
    exact ho.frame ho.synced rfl rfl rfl (fun _ _ => Or.inl rfl) fun _ _ => Or.inl rfl

theorem Orderly.step [Strategy S E A] [Executor τ A] [Observer ω E A] {act : Act E}
    (ho : engine.Orderly) (hstep : engine.step act = some (h, engine')) : engine'.Orderly := by
  -- before the collectors run, a stream can only have ended by a cancelled token
  have hstarting : engine.phase = .starting →
      (∀ receiver, engine.EventsOver receiver → engine.root = true) ∧
      ∀ receiver, engine.ActionsOver receiver → engine.root = true := by
    refine fun hphase => ⟨?_, ?_⟩
    · rintro receiver (hroot | ⟨hclosed, -⟩)
      · exact hroot
      · exact absurd (hphase.symm.trans (eventsClosed_iff.mp hclosed).1) (by simp)
    · rintro receiver (hroot | ⟨hclosed, -⟩)
      · exact hroot
      · exact absurd (hphase.symm.trans (actionsClosed_iff.mp hclosed).1) (by simp)
  unfold Engine.step at hstep
  rw [if_neg (phase_of_step hstep)] at hstep
  cases act with
  | sync =>
    obtain ⟨rfl, hphase, j, task, ht, -, -, ⟨u, synced, -, rfl⟩ | ⟨_, _, -, rfl⟩⟩ :=
      sync_cases hstep
    · obtain ⟨hevents, hactions⟩ := hstarting hphase
      refine ⟨fun hr => absurd (hphase.symm.trans hr) (by simp), fun t hm hstopped => ?_,
        fun t hm hs => Or.inl (hactions _ (ho.executor t hm hs)), ho.observerEvents,
        fun t hm hs => Or.inl (hactions _ (ho.observerActions t hm hs))⟩
      rcases List.mem_or_eq_of_mem_set hm with hm | rfl
      · exact Or.inl (hevents _ (ho.strategy t hm hstopped))
      · exact absurd hstopped (by simp)
    · obtain ⟨hevents, hactions⟩ := hstarting hphase
      exact ho.frame (fun hr => absurd hr (by simp)) rfl rfl rfl
        (fun r hr => Or.inl (hevents r hr)) fun r hr => Or.inl (hactions r hr)
  | syncCancelled =>
    simp only [syncCancelled] at hstep
    split at hstep
    · rename_i hguard
      obtain ⟨rfl, rfl⟩ := Prod.mk.inj (Option.some.inj hstep)
      obtain ⟨hevents, hactions⟩ := hstarting hguard.1
      exact ho.frame (fun hr => absurd hr (by simp)) rfl rfl rfl
        (fun r hr => Or.inl (hevents r hr)) fun r hr => Or.inl (hactions r hr)
    · exact absurd hstep (by simp)
  | spawnCollectors =>
    simp only [spawnCollectors] at hstep
    split at hstep
    · rename_i hguard
      obtain ⟨rfl, rfl⟩ := Prod.mk.inj (Option.some.inj hstep)
      obtain ⟨hevents, hactions⟩ := hstarting hguard.1
      refine ho.frame (fun _ task ht hs => ?_) rfl rfl rfl
        (fun r hr => Or.inl (hevents r hr)) fun r hr => Or.inl (hactions r hr)
      have hsynced := List.all_eq_true.mp hguard.2 task ht
      rw [hs] at hsynced
      exact absurd hsynced (by simp [StrategyTask.Status.isUnsynced])
    · exact absurd hstep (by simp)
  | shutdown =>
    simp only [shutdown] at hstep
    split at hstep
    · obtain ⟨rfl, rfl⟩ := Prod.mk.inj (Option.some.inj hstep)
      exact ho.frame ho.synced rfl rfl rfl (fun _ _ => Or.inl rfl) fun _ _ => Or.inl rfl
    · exact absurd hstep (by simp)
  | driver i signal => exact ho.driverStep hstep
  | strategy j => exact ho.strategyStep hstep
  | executor k => exact ho.executorStep hstep
  | observer m events => exact ho.observerStep hstep

theorem Orderly.of_run [Strategy S E A] [Executor τ A] [Observer ω E A] {collectors : Nat}
    {config : ReconnectConfig} {eventCapacity actionCapacity : Nat} {strategies : List S}
    {executors : List τ} {observers : List ω} {acts : List (Act E)}
    (hrun : (Engine.start collectors config eventCapacity actionCapacity strategies executors
      observers).run acts = some (h, engine)) : engine.Orderly :=
  run_rule (I := fun _ engine => engine.Orderly) (h := []) (fun _ _ _ _ _ ho hstep => ho.step hstep)
    (Orderly.start ..) hrun

/-! ### No consumer can go on -/

/-- The collectors run, nothing is cancelled, and no consumer can go on. -/
structure AtRest [Strategy S E A] [Executor τ A] [Observer ω E A] (engine : Engine C S τ ω E A) :
    Prop where
  running : engine.phase = .running
  root : engine.root = false
  strategies : ∀ j, engine.strategyStep j = none
  executors : ∀ k, engine.executorStep k = none
  observers : ∀ m events, engine.observerStep m events = none

theorem recv_of_strategyStep [Strategy S E A] {task : StrategyTask C S E A}
    (ho : engine.Orderly) (hphase : engine.phase = .running) (hroot : engine.root = false)
    (ht : engine.strategies[j]? = some task) (hstep : engine.strategyStep j = none) :
    C.recv engine.events task.events = none ∧
      (task.status = .waiting ∨ task.status = .stopped) := by
  have hmem := List.mem_of_getElem? ht
  unfold strategyStep at hstep
  rw [ht] at hstep
  simp only at hstep
  split at hstep
  · exact absurd ‹_› (ho.synced hphase task hmem)
  · rename_i hw
    rcases ho.strategy task hmem hw with hover | ⟨-, hrecv⟩
    · exact absurd (hover.symm.trans hroot) (by simp)
    · exact ⟨hrecv, Or.inr hw⟩
  · rename_i hw
    split at hstep
    · exact absurd hstep (by simp)
    · exact absurd hstep (by simp)
    · exact absurd hstep (by simp)
    · rename_i hp
      exact ⟨(intoStream_pending hp).2.2, Or.inl hw⟩
  · split at hstep <;> exact absurd hstep (by simp)
  · rw [hroot, if_neg (by simp)] at hstep
    split at hstep <;> exact absurd hstep (by simp)

theorem recv_of_executorStep [Executor τ A] {task : ExecutorTask C τ A} (ho : engine.Orderly)
    (hroot : engine.root = false) (ht : engine.executors[k]? = some task)
    (hstep : engine.executorStep k = none) :
    C.recv engine.actions task.actions = none ∧
      (task.status = .waiting ∨ task.status = .stopped) := by
  unfold executorStep at hstep
  rw [ht] at hstep
  simp only at hstep
  split at hstep
  · rename_i hw
    rcases ho.executor task (List.mem_of_getElem? ht) hw with hover | ⟨-, hrecv⟩
    · exact absurd (hover.symm.trans hroot) (by simp)
    · exact ⟨hrecv, Or.inr hw⟩
  · rename_i hw
    split at hstep
    · exact absurd hstep (by simp)
    · exact absurd hstep (by simp)
    · exact absurd hstep (by simp)
    · rename_i hp
      exact ⟨(intoStream_pending hp).2.2, Or.inl hw⟩
  · exact absurd hstep (by simp)

/-- An observer that polls one stream in vain, and then the other one. -/
theorem recv_of_observerStep [Observer ω E A] {task : ObserverTask C ω E A} (ho : engine.Orderly)
    (hroot : engine.root = false) (ht : engine.observers[m]? = some task)
    (hevents : engine.observerStep m true = none) (hactions : engine.observerStep m false = none) :
    C.recv engine.events task.events = none ∧ C.recv engine.actions task.actions = none ∧
      ((∃ a b, task.status = .waiting a b) ∨ task.status = .stopped) := by
  have hmem := List.mem_of_getElem? ht
  have hno : noEvents task.status = true → C.recv engine.events task.events = none := by
    intro hover
    rcases ho.observerEvents task hmem hover with hr | ⟨-, hrecv⟩
    · exact absurd (hr.symm.trans hroot) (by simp)
    · exact hrecv
  have hno' : noActions task.status = true → C.recv engine.actions task.actions = none := by
    intro hover
    rcases ho.observerActions task hmem hover with hr | ⟨-, hrecv⟩
    · exact absurd (hr.symm.trans hroot) (by simp)
    · exact hrecv
  unfold observerStep at hevents hactions
  rw [ht] at hevents hactions
  simp only at hevents hactions
  cases hw : task.status with
  | stopped => exact ⟨hno (by rw [hw]; rfl), hno' (by rw [hw]; rfl), Or.inr rfl⟩
  | observing x a b =>
    rw [hw] at hevents
    exact absurd hevents (by simp)
  | waiting a b =>
    rw [hw] at hevents hactions hno hno'
    refine ⟨?_, ?_, Or.inl ⟨a, b, rfl⟩⟩
    · -- where a stream is still open, the failed step says that nothing was there
      cases a with
      | true => exact hno rfl
      | false =>
        simp only [Bool.false_and, Bool.false_eq_true, if_false, if_true] at hevents
        split at hevents
        · exact absurd hevents (by simp)
        · exact absurd hevents (by simp)
        · exact absurd hevents (by simp)
        · rename_i hp
          exact (intoStream_pending hp).2.2
    · cases b with
      | true => exact hno' rfl
      | false =>
        simp only [Bool.and_false, Bool.false_eq_true, if_false] at hactions
        split at hactions
        · exact absurd hactions (by simp)
        · exact absurd hactions (by simp)
        · exact absurd hactions (by simp)
        · rename_i hp
          exact (intoStream_pending hp).2.2

/-- What a consumer has been given when nothing is left: every message, or the number of those it
has missed. -/
structure Complete {α : Type} (capacity : Nat) (history : List α) (given : List (Received α)) :
    Prop where
  sublist : (items given).Sublist history
  counted : (items given).length + missed given = history.length
  all : history.length ≤ capacity → items given = history

theorem complete_of_recv {α : Type} {channel : C.Of α} {capacity : Nat} {history : List α}
    {given : List (Received α)} {receiver : C.Receiver}
    (hf : Followed capacity history given (C.next receiver))
    (hc : C.Holds capacity history channel) (hrecv : C.recv channel receiver = none) :
    Complete capacity history given := by
  have ht := hf.of_none hc hrecv
  exact ⟨ht.items.1, ht.items.2, fun hle => ht.eq_of_missed (hf.relayed.kept hle)⟩

/-- A strategy that has nothing left to send has sent all that it computed. -/
theorem Processed.complete [Strategy S E A] {root : Bool} {strategy : S} {events : List E}
    {sent : List A} {task : StrategyTask C S E A} (hp : Processed root strategy events sent task)
    (hroot : root = false) (hw : task.status = .waiting ∨ task.status = .stopped) :
    processEvents (syncedStrategy E A strategy) events = (sent, task.strategy) := by
  unfold Processed at hp
  rcases hw with hw | hw
  · rw [hw] at hp
    exact hp
  · rw [hw] at hp
    exact hp.2 hroot

/-- When no consumer can go on, and nothing is cancelled: every strategy has processed all events,
every executor has executed all actions, and every observer has observed both, less the messages
that they are counted to have missed, of which there are none as long as the channels can hold
everything. -/
theorem engine_at_rest_complete [Strategy S E A] [Executor τ A] [Observer ω E A]
    {collectors : Nat} {config : ReconnectConfig} {eventCapacity actionCapacity : Nat}
    {strategies : List S} {executors : List τ} {observers : List ω} {acts : List (Act E)}
    (hrun : (Engine.start collectors config eventCapacity actionCapacity strategies executors
      observers).run acts = some (h, engine)) (hrest : engine.AtRest) :
    (∀ (j : Nat) strategy, strategies[j]? = some strategy →
      Complete eventCapacity (h.filterMap event?) (h.filterMap (toStrategy? j)) ∧
      ∃ task, engine.strategies[j]? = some task ∧
        processEvents (syncedStrategy E A strategy) (items (h.filterMap (toStrategy? j)))
          = (h.filterMap (actionOf? j), task.strategy)) ∧
    (∀ (k : Nat) executor, executors[k]? = some executor →
      Complete actionCapacity (h.filterMap action?) (h.filterMap (toExecutor? k)) ∧
      ∃ task, engine.executors[k]? = some task ∧
        task.executor = (executeAll executor (items (h.filterMap (toExecutor? k)))).2) ∧
    ∀ (m : Nat) observer, observers[m]? = some observer →
      Complete eventCapacity (h.filterMap event?) (h.filterMap (eventToObserver? m)) ∧
      Complete actionCapacity (h.filterMap action?) (h.filterMap (actionToObserver? m)) ∧
      ∃ task, engine.observers[m]? = some task ∧
        task.observer = observeAll observer (seen (h.filterMap (toObserver? m))) := by
  have hc := Consistent.of_run hrun
  have ho := Orderly.of_run hrun
  -- a task at rest has nothing to receive, and nothing in hand
  refine ⟨fun j strategy hj => ?_, fun k executor hk => ?_, fun m observer hm => ?_⟩
  · obtain ⟨task, hget, hok⟩ := hc.exists_strategyTask hj
    obtain ⟨hrecv, hw⟩ :=
      recv_of_strategyStep ho hrest.running hrest.root hget (hrest.strategies j)
    exact ⟨complete_of_recv hok.followed hc.events hrecv, task, hget,
      hok.processed.complete hrest.root hw⟩
  · obtain ⟨task, hget, hok⟩ := hc.exists_executorTask hk
    obtain ⟨hrecv, hw⟩ := recv_of_executorStep ho hrest.root hget (hrest.executors k)
    refine ⟨complete_of_recv hok.followed hc.actions hrecv, task, hget, ?_⟩
    have he := hok.executed
    unfold Executed at he
    rcases hw with hw | hw
    · rw [hw] at he
      exact he
    · rw [hw] at he
      exact he
  · obtain ⟨task, hget, hok⟩ := hc.exists_observerTask hm
    obtain ⟨hrecv, hrecv', hw⟩ := recv_of_observerStep ho hrest.root hget (hrest.observers m true)
      (hrest.observers m false)
    refine ⟨complete_of_recv hok.events hc.events hrecv,
      complete_of_recv hok.actions hc.actions hrecv', task, hget, ?_⟩
    have hob := hok.observed
    unfold Observed at hob
    rcases hw with ⟨a, b, hw⟩ | hw
    · rw [hw] at hob
      exact hob
    · rw [hw] at hob
      exact hob

/-- The consumers go on until they have nothing left. -/
def restingActs : List (Act Nat) :=
  laggingActs ++ [.executor 0, .executor 0, .observer 0 false, .observer 0 false,
    .observer 0 false, .observer 0 false]

def restingRun : List (Happening Nat Nat) × Engine Broadcast.channel Adder Ledger Counter Nat Nat :=
  (smallEngine.run restingActs).get rfl

theorem engine_at_rest_complete_lagging :
    restingRun.1.filterMap event? = [5, 7] ∧
    Complete 1 [5, 7] (restingRun.1.filterMap (toStrategy? 0)) ∧
    Complete 4 [7, 7] (restingRun.1.filterMap (toExecutor? 0)) ∧
    ∃ task, restingRun.2.executors[0]? = some task ∧ task.executor = ⟨[7, 7]⟩ := by
  have hrest : restingRun.2.AtRest := ⟨rfl, rfl, fun j => by cases j <;> rfl,
    fun k => by cases k <;> rfl, fun m events => by cases m <;> cases events <;> rfl⟩
  have hrun : smallEngine.run restingActs = some (restingRun.1, restingRun.2) := rfl
  obtain ⟨hstrategies, hexecutors, -⟩ := engine_at_rest_complete hrun hrest
  obtain ⟨hactions, task, htask, hexecuted⟩ := hexecutors 0 _ rfl
  exact ⟨rfl, (hstrategies 0 _ rfl).1, hactions, task, htask, hexecuted⟩

end Engine

end ArtemisLight
