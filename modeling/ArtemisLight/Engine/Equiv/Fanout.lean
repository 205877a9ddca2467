import ArtemisLight.Engine.Equiv.Run
import ArtemisLight.Lib.Broadcast

/-!
# What reaches the strategies and the executors

`Consistent` ties the state of the engine to all that has been seen since its start, whatever the
interleaving.  Every consumer has been given the messages sent, in order, less those it is counted
to have missed (`Followed`); a strategy has sent what it computed from the events it was given, and
an executor has executed the actions it was given.
-/

namespace ArtemisLight

namespace Engine

open Happening (event? action? actionOf? toStrategy? toExecutor? eventToObserver?
  actionToObserver? toObserver?)

variable {C : Channel} {S τ ω E A : Type} [Strategy S E A]

/-! ### The consumers by themselves -/

/-- What a strategy's task has sent, by where it is: all that the strategy computed from the events
it was given, up to those that are left to be drained; or a first part of it, if it was stopped by
the root token. -/
def Processed (root : Bool) (strategy : S) (events : List E) (sent : List A)
    (task : StrategyTask C S E A) : Prop :=
  match task.status with
  | .unsynced => events = [] ∧ sent = [] ∧ task.strategy = strategy
  | .waiting => processEvents (syncedStrategy E A strategy) events = (sent, task.strategy)
  | .processing event => ∃ done, events = done ++ [event] ∧
      processEvents (syncedStrategy E A strategy) done = (sent, task.strategy)
  | .draining rest =>
    processEvents (syncedStrategy E A strategy) events = (sent ++ rest, task.strategy)
  | .stopped => sent <+: (processEvents (syncedStrategy E A strategy) events).1 ∧
      (root = false → processEvents (syncedStrategy E A strategy) events = (sent, task.strategy))

/-- The actions that an executor's task has executed. -/
def Executed [Executor τ A] (executor : τ) (actions : List A) (task : ExecutorTask C τ A) : Prop :=
  match task.status with
  | .waiting | .stopped => task.executor = (executeAll executor actions).2
  | .executing action => ∃ done, actions = done ++ [action] ∧
      task.executor = (executeAll executor done).2

/-- What an observer has seen of both channels, in the order in which it was given it. -/
def seen (given : List (Received E ⊕ Received A)) : List (E ⊕ A) :=
  given.filterMap fun
    | .inl (.item event) => some (.inl event)
    | .inr (.item action) => some (.inr action)
    | _ => none

/-- An observer observes events and actions one after the other. -/
def observeAll [Observer ω E A] (observer : ω) (l : List (E ⊕ A)) : ω :=
  l.foldl (fun observer x =>
    x.elim (Observer.observeEvent A observer) (Observer.observeAction E observer)) observer

/-- What an observer's task has observed. -/
def Observed [Observer ω E A] (observer : ω) (l : List (E ⊕ A)) (task : ObserverTask C ω E A) :
    Prop :=
  match task.status with
  | .waiting _ _ | .stopped => task.observer = observeAll observer l
  | .observing x _ _ => ∃ done, l = done ++ [x] ∧ task.observer = observeAll observer done

/-! ### The invariant -/

/-- A strategy's task, after `h` has been seen. -/
structure StrategyOk (root : Bool) (capacity j : Nat) (strategy : S) (h : List (Happening E A))
    (task : StrategyTask C S E A) : Prop where
  processed : Processed root strategy (items (h.filterMap (toStrategy? j)))
    (h.filterMap (actionOf? j)) task
  followed : Followed capacity (h.filterMap event?) (h.filterMap (toStrategy? j))
    (C.next task.events)

/-- An executor's task. -/
structure ExecutorOk [Executor τ A] (capacity k : Nat) (executor : τ) (h : List (Happening E A))
    (task : ExecutorTask C τ A) : Prop where
  executed : Executed executor (items (h.filterMap (toExecutor? k))) task
  followed : Followed capacity (h.filterMap action?) (h.filterMap (toExecutor? k))
    (C.next task.actions)

/-- An observer's task. -/
structure ObserverOk [Observer ω E A] (eventCapacity actionCapacity m : Nat) (observer : ω)
    (h : List (Happening E A)) (task : ObserverTask C ω E A) : Prop where
  observed : Observed observer (seen (h.filterMap (toObserver? m))) task
  events : Followed eventCapacity (h.filterMap event?) (h.filterMap (eventToObserver? m))
    (C.next task.events)
  actions : Followed actionCapacity (h.filterMap action?) (h.filterMap (actionToObserver? m))
    (C.next task.actions)

/-- The engine after `h` has been seen since it started with these strategies, executors and
observers. -/
structure Consistent [Executor τ A] [Observer ω E A] (eventCapacity actionCapacity : Nat)
    (strategies : List S) (executors : List τ) (observers : List ω) (h : List (Happening E A))
    (engine : Engine C S τ ω E A) : Prop where
  events : C.Holds eventCapacity (h.filterMap event?) engine.events
  actions : C.Holds actionCapacity (h.filterMap action?) engine.actions
  strategies_length : engine.strategies.length = strategies.length
  executors_length : engine.executors.length = executors.length
  observers_length : engine.observers.length = observers.length
  senders : ∀ j a, .action j a ∈ h → j < strategies.length
  strategy : ∀ (j : Nat) task, engine.strategies[j]? = some task →
    ∃ strategy, strategies[j]? = some strategy ∧
      StrategyOk engine.root eventCapacity j strategy h task
  executor : ∀ (k : Nat) task, engine.executors[k]? = some task →
    ∃ executor, executors[k]? = some executor ∧ ExecutorOk actionCapacity k executor h task
  observer : ∀ (m : Nat) task, engine.observers[m]? = some task →
    ∃ observer, observers[m]? = some observer ∧
      ObserverOk eventCapacity actionCapacity m observer h task

/-! ### Frames -/

variable {capacity capacity' j k m : Nat} {h h' : List (Happening E A)}

omit [Strategy S E A] in
theorem filterMap_toObserver_nil (hg : h.filterMap (toObserver? m) = []) :
    h.filterMap (eventToObserver? m) = [] ∧ h.filterMap (actionToObserver? m) = [] := by
  rw [List.filterMap_eq_nil_iff] at hg
  refine ⟨List.filterMap_eq_nil_iff.mpr fun x hx => ?_,
    List.filterMap_eq_nil_iff.mpr fun x hx => ?_⟩
  · have := hg x hx
    cases x <;> simp_all [toObserver?, eventToObserver?]
  · have := hg x hx
    cases x <;> simp_all [toObserver?, actionToObserver?]

/-- What is seen of others does not touch a strategy's task. -/
theorem Processed.mono {root root' : Bool} {strategy : S} {events : List E} {sent : List A}
    {task : StrategyTask C S E A} (hp : Processed root strategy events sent task)
    (hroot : root = true → root' = true) : Processed root' strategy events sent task := by
  unfold Processed at hp ⊢
  cases hw : task.status with
  | stopped =>
    rw [hw] at hp
    exact ⟨hp.1, fun hr => hp.2 (Bool.eq_false_iff.mpr fun ht => by simp [hroot ht] at hr)⟩
  | _ =>
    rw [hw] at hp
    exact hp

theorem StrategyOk.frame {root root' : Bool} {strategy : S} {task : StrategyTask C S E A}
    (hok : StrategyOk root capacity j strategy h task) (hroot : root = true → root' = true)
    (hg : h'.filterMap (toStrategy? j) = []) (ha : h'.filterMap (actionOf? j) = []) :
    StrategyOk root' capacity j strategy (h ++ h') task := by
  refine ⟨?_, ?_⟩
  · rw [List.filterMap_append, List.filterMap_append, hg, ha, List.append_nil, List.append_nil]
    exact hok.processed.mono hroot
  · rw [List.filterMap_append, List.filterMap_append, hg, List.append_nil]
    exact hok.followed.append _

omit [Strategy S E A] in
theorem ExecutorOk.frame [Executor τ A] {executor : τ} {task : ExecutorTask C τ A}
    (hok : ExecutorOk capacity k executor h task) (hg : h'.filterMap (toExecutor? k) = []) :
    ExecutorOk capacity k executor (h ++ h') task := by
  refine ⟨?_, ?_⟩
  · rw [List.filterMap_append, hg, List.append_nil]
    exact hok.executed
  · rw [List.filterMap_append, List.filterMap_append, hg, List.append_nil]
    exact hok.followed.append _

omit [Strategy S E A] in
theorem ObserverOk.frame [Observer ω E A] {observer : ω} {task : ObserverTask C ω E A}
    (hok : ObserverOk capacity capacity' m observer h task)
    (hg : h'.filterMap (toObserver? m) = []) :
    ObserverOk capacity capacity' m observer (h ++ h') task := by
  obtain ⟨he, ha⟩ := filterMap_toObserver_nil hg
  refine ⟨?_, ?_, ?_⟩
  · rw [List.filterMap_append, hg, List.append_nil]
    exact hok.observed
  · rw [List.filterMap_append, List.filterMap_append, he, List.append_nil]
    exact hok.events.append _
  · rw [List.filterMap_append, List.filterMap_append, ha, List.append_nil]
    exact hok.actions.append _

/-! ### One step of a task -/

theorem items_concat_item {α : Type} (given : List (Received α)) (a : α) :
    items (given ++ [.item a]) = items given ++ [a] := by
  simp [items]

theorem items_concat_lagged {α : Type} (given : List (Received α)) (n : Nat) :
    items (given ++ [.lagged n]) = items given := by
  simp [items]

omit [Strategy S E A] in
theorem seen_concat_event (given : List (Received E ⊕ Received A)) (event : E) :
    seen (given ++ [.inl (.item event)]) = seen given ++ [.inl event] := by
  simp [seen]

omit [Strategy S E A] in
theorem seen_concat_action (given : List (Received E ⊕ Received A)) (action : A) :
    seen (given ++ [.inr (.item action)]) = seen given ++ [.inr action] := by
  simp [seen]

omit [Strategy S E A] in
theorem seen_concat_lagged (given : List (Received E ⊕ Received A)) (n : Nat) :
    seen (given ++ [.inl (.lagged n)]) = seen given := by
  simp [seen]

omit [Strategy S E A] in
theorem seen_concat_lagged' (given : List (Received E ⊕ Received A)) (n : Nat) :
    seen (given ++ [.inr (.lagged n)]) = seen given := by
  simp [seen]

omit [Strategy S E A] in
theorem observeAll_concat [Observer ω E A] (observer : ω) (l : List (E ⊕ A)) (x : E ⊕ A) :
    observeAll observer (l ++ [x])
      = x.elim (Observer.observeEvent A (observeAll observer l))
          (Observer.observeAction E (observeAll observer l)) := by
  simp [observeAll]

/-- What a strategy's task does keeps what it has sent what it has computed. -/
theorem StrategyOk.step {engine : Engine C S τ ω E A} {strategy : S}
    {task task' : StrategyTask C S E A} {actions : C.Of A}
    (hok : StrategyOk engine.root capacity j strategy h task)
    (hevents : C.Holds capacity (h.filterMap event?) engine.events)
    (hstep : StrategyStepped engine j task h' task' actions) :
    StrategyOk engine.root capacity j strategy (h ++ h') task' := by
  obtain ⟨hp, hf⟩ := hok
  unfold Processed at hp
  cases hstep with
  | given r events hw hroot hrecv =>
    have hgiven : [Happening.strategyGiven (A := A) j r].filterMap (toStrategy? j) = [r] := by
      simp [toStrategy?]
    refine ⟨?_, ?_⟩
    · rw [hw] at hp
      rw [List.filterMap_append, List.filterMap_append, hgiven]
      show Processed _ strategy _ (_ ++ []) _
      rw [List.append_nil]
      cases r with
      -- the event is still to be processed
      | item event => exact ⟨_, items_concat_item _ _, hp⟩
      | lagged n =>
        rw [items_concat_lagged]
        exact hp
    · rw [List.filterMap_append, List.filterMap_append, hgiven]
      exact (hf.recv hevents hrecv).append _
  | ended hw _ =>
    rw [hw] at hp
    refine StrategyOk.frame ⟨?_, hf⟩ id rfl rfl
    simp only at hp
    -- a task that stops has sent everything it computed
    exact ⟨⟨[], by rw [hp, List.append_nil]⟩, fun _ => hp⟩
  | processed event acts strategy' hw hproc =>
    rw [hw] at hp
    obtain ⟨done, hdone, hp⟩ := hp
    refine StrategyOk.frame ⟨?_, hf⟩ id rfl rfl
    show processEvents _ _ = _
    rw [hdone, processEvents_concat, hp, hproc]
    rfl
  | rejected event e strategy' hw hproc =>
    rw [hw] at hp
    obtain ⟨done, hdone, hp⟩ := hp
    refine StrategyOk.frame ⟨?_, hf⟩ id rfl rfl
    show processEvents _ _ = _
    rw [hdone, processEvents_concat, hp, hproc]
    -- an event whose processing fails has no actions
    exact Prod.ext (List.append_nil _) rfl
  | cut acts hw hroot =>
    rw [hw] at hp
    refine StrategyOk.frame ⟨?_, hf⟩ id rfl rfl
    simp only at hp
    -- the actions that are cut off are computed, but not sent
    refine ⟨?_, fun hr => absurd (hroot.symm.trans hr) (by simp)⟩
    rw [hp]
    exact List.prefix_append _ _
  | drained hw _ =>
    rw [hw] at hp
    refine StrategyOk.frame ⟨?_, hf⟩ id rfl rfl
    show processEvents _ _ = _
    simp only [List.append_nil] at hp
    exact hp
  | sent action acts hw _ =>
    rw [hw] at hp
    have hsent : [Happening.action (E := E) j action].filterMap (actionOf? j) = [action] := by
      simp [actionOf?]
    refine ⟨?_, ?_⟩
    · rw [List.filterMap_append, List.filterMap_append, hsent]
      show processEvents _ (items (_ ++ [])) = _
      rw [List.append_nil, List.append_assoc]
      exact hp
    · rw [List.filterMap_append, List.filterMap_append]
      show Followed _ (_ ++ []) (_ ++ []) _
      rw [List.append_nil, List.append_nil]
      exact hf

omit [Strategy S E A] in
theorem executeAll_concat_state [Executor τ A] (executor : τ) (actions : List A) (action : A) :
    (executeAll executor (actions ++ [action])).2
      = (Executor.execute (executeAll executor actions).2 action).2 := by
  rw [executeAll_concat]

omit [Strategy S E A] in
/-- What an executor's task does keeps it the executor that has executed what it was given. -/
theorem ExecutorOk.step [Executor τ A] {engine : Engine C S τ ω E A} {executor : τ}
    {task task' : ExecutorTask C τ A} (hok : ExecutorOk capacity k executor h task)
    (hactions : C.Holds capacity (h.filterMap action?) engine.actions)
    (hstep : ExecutorStepped engine k task h' task') :
    ExecutorOk capacity k executor (h ++ h') task' := by
  obtain ⟨he, hf⟩ := hok
  unfold Executed at he
  cases hstep with
  | given r actions hw hroot hrecv =>
    have hgiven : [Happening.executorGiven (E := E) k r].filterMap (toExecutor? k) = [r] := by
      simp [toExecutor?]
    refine ⟨?_, ?_⟩
    · rw [hw] at he
      rw [List.filterMap_append, hgiven]
      cases r with
      | item action => exact ⟨_, items_concat_item _ _, he⟩
      | lagged n =>
        rw [items_concat_lagged]
        exact he
    · rw [List.filterMap_append, List.filterMap_append, hgiven]
      exact (hf.recv hactions hrecv).append _
  | ended hw _ =>
    rw [hw] at he
    exact ExecutorOk.frame ⟨he, hf⟩ rfl
  | executed action hw =>
    rw [hw] at he
    obtain ⟨done, hdone, he⟩ := he
    refine ExecutorOk.frame ⟨?_, hf⟩ rfl
    show _ = (executeAll executor _).2
    rw [hdone, executeAll_concat_state, he]

omit [Strategy S E A] in
/-- What an observer's task does keeps it the observer that has observed what it was given. -/
theorem ObserverOk.step [Observer ω E A] {engine : Engine C S τ ω E A} {observer : ω}
    {task task' : ObserverTask C ω E A} (hok : ObserverOk capacity capacity' m observer h task)
    (hevents : C.Holds capacity (h.filterMap event?) engine.events)
    (hactions : C.Holds capacity' (h.filterMap action?) engine.actions)
    (hstep : ObserverStepped engine m task h' task') :
    ObserverOk capacity capacity' m observer (h ++ h') task' := by
  obtain ⟨ho, he, ha⟩ := hok
  unfold Observed at ho
  cases hstep with
  | givenEvent r events ended hw _ hrecv =>
    rw [hw] at ho
    have hgiven : [Happening.observerGivenEvent (A := A) m r].filterMap (eventToObserver? m)
        = [r] := by simp [eventToObserver?]
    have hboth : [Happening.observerGivenEvent (A := A) m r].filterMap (toObserver? m)
        = [.inl r] := by simp [toObserver?]
    refine ⟨?_, ?_, ?_⟩
    · rw [List.filterMap_append, hboth]
      cases r with
      -- what was given is still to be observed
      | item event => exact ⟨_, seen_concat_event _ _, ho⟩
      | lagged n =>
        show _ = observeAll observer (seen (_ ++ _))
        rw [seen_concat_lagged]
        exact ho
    · rw [List.filterMap_append, List.filterMap_append, hgiven]
      exact (he.recv hevents hrecv).append _
    · rw [List.filterMap_append, List.filterMap_append]
      show Followed _ (_ ++ []) (_ ++ []) _
      rw [List.append_nil, List.append_nil]
      exact ha
  | givenAction r actions ended hw _ hrecv =>
    rw [hw] at ho
    have hgiven : [Happening.observerGivenAction (E := E) m r].filterMap (actionToObserver? m)
        = [r] := by simp [actionToObserver?]
    have hboth : [Happening.observerGivenAction (E := E) m r].filterMap (toObserver? m)
        = [.inr r] := by simp [toObserver?]
    refine ⟨?_, ?_, ?_⟩
    · rw [List.filterMap_append, hboth]
      cases r with
      | item action => exact ⟨_, seen_concat_action _ _, ho⟩
      | lagged n =>
        show _ = observeAll observer (seen (_ ++ _))
        rw [seen_concat_lagged']
        exact ho
    · rw [List.filterMap_append, List.filterMap_append]
      show Followed _ (_ ++ []) (_ ++ []) _
      rw [List.append_nil, List.append_nil]
      exact he
    · rw [List.filterMap_append, List.filterMap_append, hgiven]
      exact (ha.recv hactions hrecv).append _
  | eventsEnded _ hw _ =>
    rw [hw] at ho
    exact ObserverOk.frame ⟨ho, he, ha⟩ rfl
  | actionsEnded _ hw _ =>
    rw [hw] at ho
    exact ObserverOk.frame ⟨ho, he, ha⟩ rfl
  | ended hw =>
    rw [hw] at ho
    exact ObserverOk.frame ⟨ho, he, ha⟩ rfl
  | observed x _ _ hw =>
    rw [hw] at ho
    obtain ⟨done, hdone, ho⟩ := ho
    refine ObserverOk.frame ⟨?_, he, ha⟩ rfl
    show _ = observeAll observer (seen _)
    rw [hdone, observeAll_concat, ho]

/-! ### One step of the engine -/

section Engines

variable [Executor τ A] [Observer ω E A] {eventCapacity actionCapacity : Nat}
  {strategies : List S} {executors : List τ} {observers : List ω}
  {engine engine' : Engine C S τ ω E A}

/-- A step that leaves every consumer as it is. -/
theorem Consistent.frame
    (hc : Consistent eventCapacity actionCapacity strategies executors observers h engine)
    (hevents : C.Holds eventCapacity ((h ++ h').filterMap event?) engine'.events)
    (hroot : engine.root = true → engine'.root = true)
    (hactions : engine'.actions = engine.actions)
    (hstrategies : engine'.strategies = engine.strategies)
    (hexecutors : engine'.executors = engine.executors)
    (hobservers : engine'.observers = engine.observers)
    (hh : ∀ x ∈ h', (∃ i e, x = .event i e) ∨ ∃ token, x = .cancelled token) :
    Consistent eventCapacity actionCapacity strategies executors observers (h ++ h') engine' := by
  have hnil : ∀ {β : Type} (f : Happening E A → Option β), (∀ i e, f (.event i e) = none) →
      (∀ token, f (.cancelled token) = none) → h'.filterMap f = [] := by
    intro β f he ht
    rw [List.filterMap_eq_nil_iff]
    intro x hx
    rcases hh x hx with ⟨i, e, rfl⟩ | ⟨token, rfl⟩
    · exact he i e
    · exact ht token
  refine ⟨hevents, ?_, ?_, ?_, ?_, fun j a ha => ?_,
    fun j task ht => ?_, fun k task ht => ?_, fun m task ht => ?_⟩
  · rw [hactions, List.filterMap_append, hnil _ (fun _ _ => rfl) fun _ => rfl, List.append_nil]
    exact hc.actions
  · rw [hstrategies, hc.strategies_length]
  · rw [hexecutors, hc.executors_length]
  · rw [hobservers, hc.observers_length]
  · rcases List.mem_append.mp ha with ha | ha
    · exact hc.senders j a ha
    · rcases hh _ ha with ⟨i, e, he⟩ | ⟨token, he⟩ <;> exact absurd he (by simp)
  · obtain ⟨strategy, hs, hok⟩ := hc.strategy j task (hstrategies ▸ ht)
    exact ⟨strategy, hs, hok.frame hroot (hnil _ (fun _ _ => rfl) fun _ => rfl)
      (hnil _ (fun _ _ => rfl) fun _ => rfl)⟩
  · obtain ⟨executor, hs, hok⟩ := hc.executor k task (hexecutors ▸ ht)
    exact ⟨executor, hs, hok.frame (hnil _ (fun _ _ => rfl) fun _ => rfl)⟩
  · obtain ⟨observer, hs, hok⟩ := hc.observer m task (hobservers ▸ ht)
    exact ⟨observer, hs, hok.frame (hnil _ (fun _ _ => rfl) fun _ => rfl)⟩

/-- A strategy's task takes a step. -/
theorem Consistent.strategyStep
    (hc : Consistent eventCapacity actionCapacity strategies executors observers h engine)
    (hstep : engine.strategyStep j = some (h', engine')) :
    Consistent eventCapacity actionCapacity strategies executors observers (h ++ h') engine' := by
  obtain ⟨task, task', actions, ht, hs, rfl⟩ := strategyStep_cases hstep
  have hj : j < strategies.length := hc.strategies_length ▸ (List.getElem?_eq_some_iff.mp ht).1
  -- the happenings of the step are this strategy's
  have hevents : h'.filterMap event? = [] := by cases hs <;> rfl
  have hsend : C.Holds actionCapacity ((h ++ h').filterMap action?) actions := by
    rw [List.filterMap_append]
    cases hs with
    | sent action _ _ _ => exact hc.actions.send action
    | _ =>
      show C.Holds _ (_ ++ []) _
      rw [List.append_nil]
      exact hc.actions
  refine ⟨?_, hsend, ?_, hc.executors_length, hc.observers_length, fun i a ha => ?_,
    fun i t hi => ?_, fun k t hk => ?_, fun m t hm => ?_⟩
  · rw [List.filterMap_append, hevents, List.append_nil]
    exact hc.events
  · rw [List.length_set, hc.strategies_length]
  · rcases List.mem_append.mp ha with ha | ha
    · exact hc.senders i a ha
    · cases hs with
      | sent action _ _ _ =>
        obtain ⟨rfl, -⟩ := Happening.action.inj (List.mem_singleton.mp ha)
        exact hj
      | _ => exact absurd ha (by simp)
  · simp only [List.getElem?_set] at hi
    split at hi
    · rename_i hij
      subst hij
      split at hi
      · obtain rfl := Option.some.inj hi
        obtain ⟨strategy, hst, hok⟩ := hc.strategy j task ht
        exact ⟨strategy, hst, hok.step hc.events hs⟩
      · exact absurd hi (by simp)
    · rename_i hij
      obtain ⟨strategy, hst, hok⟩ := hc.strategy i t hi
      refine ⟨strategy, hst, hok.frame id ?_ ?_⟩
      · cases hs <;> simp [toStrategy?, hij]
      · cases hs <;> simp [actionOf?, hij]
  · obtain ⟨executor, hx, hok⟩ := hc.executor k t hk
    exact ⟨executor, hx, hok.frame (by cases hs <;> rfl)⟩
  · obtain ⟨observer, hob, hok⟩ := hc.observer m t hm
    exact ⟨observer, hob, hok.frame (by cases hs <;> rfl)⟩

/-- An executor's task takes a step. -/
theorem Consistent.executorStep
    (hc : Consistent eventCapacity actionCapacity strategies executors observers h engine)
    (hstep : engine.executorStep k = some (h', engine')) :
    Consistent eventCapacity actionCapacity strategies executors observers (h ++ h') engine' := by
  obtain ⟨task, task', ht, hs, rfl⟩ := executorStep_cases hstep
  have hevents : h'.filterMap event? = [] := by cases hs <;> rfl
  have hactions : h'.filterMap action? = [] := by cases hs <;> rfl
  refine ⟨?_, ?_, hc.strategies_length, ?_, hc.observers_length, fun i a ha => ?_,
    fun i t hi => ?_, fun i t hi => ?_, fun m t hm => ?_⟩
  · rw [List.filterMap_append, hevents, List.append_nil]
    exact hc.events
  · rw [List.filterMap_append, hactions, List.append_nil]
    exact hc.actions
  · rw [List.length_set, hc.executors_length]
  · rcases List.mem_append.mp ha with ha | ha
    · exact hc.senders i a ha
    · cases hs <;> exact absurd ha (by simp)
  · obtain ⟨strategy, hst, hok⟩ := hc.strategy i t hi
    exact ⟨strategy, hst, hok.frame id (by cases hs <;> rfl) (by cases hs <;> rfl)⟩
  · simp only [List.getElem?_set] at hi
    split at hi
    · rename_i hki
      subst hki
      split at hi
      · obtain rfl := Option.some.inj hi
        obtain ⟨executor, hx, hok⟩ := hc.executor k task ht
        exact ⟨executor, hx, hok.step hc.actions hs⟩
      · exact absurd hi (by simp)
    · rename_i hki
      obtain ⟨executor, hx, hok⟩ := hc.executor i t hi
      refine ⟨executor, hx, hok.frame ?_⟩
      cases hs <;> simp [toExecutor?, hki]
  · obtain ⟨observer, hob, hok⟩ := hc.observer m t hm
    exact ⟨observer, hob, hok.frame (by cases hs <;> rfl)⟩

/-- An observer's task takes a step. -/
theorem Consistent.observerStep {events : Bool}
    (hc : Consistent eventCapacity actionCapacity strategies executors observers h engine)
    (hstep : engine.observerStep m events = some (h', engine')) :
    Consistent eventCapacity actionCapacity strategies executors observers (h ++ h') engine' := by
  obtain ⟨task, task', ht, hs, rfl⟩ := observerStep_cases hstep
  have hevents : h'.filterMap event? = [] := by cases hs <;> rfl
  have hactions : h'.filterMap action? = [] := by cases hs <;> rfl
  refine ⟨?_, ?_, hc.strategies_length, hc.executors_length, ?_, fun i a ha => ?_,
    fun i t hi => ?_, fun i t hi => ?_, fun i t hi => ?_⟩
  · rw [List.filterMap_append, hevents, List.append_nil]
    exact hc.events
  · rw [List.filterMap_append, hactions, List.append_nil]
    exact hc.actions
  · rw [List.length_set, hc.observers_length]
  · rcases List.mem_append.mp ha with ha | ha
    · exact hc.senders i a ha
    · cases hs <;> exact absurd ha (by simp)
  · obtain ⟨strategy, hst, hok⟩ := hc.strategy i t hi
    exact ⟨strategy, hst, hok.frame id (by cases hs <;> rfl) (by cases hs <;> rfl)⟩
  · obtain ⟨executor, hx, hok⟩ := hc.executor i t hi
    exact ⟨executor, hx, hok.frame (by cases hs <;> rfl)⟩
  · simp only [List.getElem?_set] at hi
    split at hi
    · rename_i hmi
      subst hmi
      split at hi
      · obtain rfl := Option.some.inj hi
        obtain ⟨observer, hob, hok⟩ := hc.observer m task ht
        exact ⟨observer, hob, hok.step hc.events hc.actions hs⟩
      · exact absurd hi (by simp)
    · rename_i hmi
      obtain ⟨observer, hob, hok⟩ := hc.observer i t hi
      refine ⟨observer, hob, hok.frame ?_⟩
      cases hs <;> simp [toObserver?, hmi]

/-- A strategy is synced, before it is given anything, or `run` fails. -/
theorem Consistent.sync
    (hc : Consistent eventCapacity actionCapacity strategies executors observers h engine)
    (hstep : engine.sync = some (h', engine')) :
    Consistent eventCapacity actionCapacity strategies executors observers (h ++ h') engine' := by
  obtain ⟨rfl, -, j, task, ht, hunsynced, -, ⟨u, synced, hs, rfl⟩ |
    ⟨_, _, -, rfl⟩⟩ := sync_cases hstep
  · rw [List.append_nil]
    refine ⟨hc.events, hc.actions, ?_, hc.executors_length, hc.observers_length, hc.senders,
      fun i t hi => ?_, hc.executor, hc.observer⟩
    · rw [List.length_set, hc.strategies_length]
    · simp only [List.getElem?_set] at hi
      split at hi
      · rename_i hji
        subst hji
        split at hi
        · obtain rfl := Option.some.inj hi
          obtain ⟨strategy, hst, hp, hf⟩ := hc.strategy j task ht
          unfold Processed at hp
          rw [hunsynced] at hp
          obtain ⟨hgiven, hsent, rfl⟩ := hp
          refine ⟨task.strategy, hst, ?_, hf⟩
          show processEvents (syncedStrategy E A task.strategy) _ = (_, synced)
          rw [hgiven, hsent, syncedStrategy, hs]
          rfl
        · exact absurd hi (by simp)
      · exact hc.strategy i t hi
  · exact hc.frame (by rw [List.append_nil]; exact hc.events) id rfl rfl rfl rfl (by simp)

/-- A driver's task takes a step. -/
theorem Consistent.driverStep {i : Nat} {signal : Driver.Signal E}
    (hc : Consistent eventCapacity actionCapacity strategies executors observers h engine)
    (hstep : engine.driverStep i signal = some (h', engine')) :
    Consistent eventCapacity actionCapacity strategies executors observers (h ++ h') engine' := by
  obtain ⟨driver, driver', -, -, -, hs⟩ := driverStep_cases hstep
  cases hs with
  | quiet =>
    exact hc.frame (by rw [List.append_nil]; exact hc.events) id rfl rfl rfl rfl (by simp)
  | sent event _ =>
    refine hc.frame ?_ id rfl rfl rfl rfl (by simp)
    rw [List.filterMap_append]
    exact hc.events.send event
  | escalated _ =>
    refine hc.frame ?_ (fun _ => rfl) rfl rfl rfl rfl (by simp)
    rw [List.filterMap_append]
    show C.Holds _ (_ ++ []) _
    rw [List.append_nil]
    exact hc.events

/-- Every act keeps the engine consistent with what has been seen. -/
theorem Consistent.step {act : Act E}
    (hc : Consistent eventCapacity actionCapacity strategies executors observers h engine)
    (hstep : engine.step act = some (h', engine')) :
    Consistent eventCapacity actionCapacity strategies executors observers (h ++ h') engine' := by
  unfold Engine.step at hstep
  rw [if_neg (phase_of_step hstep)] at hstep
  cases act with
  | sync => exact hc.sync hstep
  | syncCancelled =>
    simp only [syncCancelled] at hstep
    split at hstep
    · obtain ⟨rfl, rfl⟩ := Prod.mk.inj (Option.some.inj hstep)
      exact hc.frame (by rw [List.append_nil]; exact hc.events) id rfl rfl rfl rfl (by simp)
    · exact absurd hstep (by simp)
  | spawnCollectors =>
    simp only [spawnCollectors] at hstep
    split at hstep
    · obtain ⟨rfl, rfl⟩ := Prod.mk.inj (Option.some.inj hstep)
      exact hc.frame (by rw [List.append_nil]; exact hc.events) id rfl rfl rfl rfl (by simp)
    · exact absurd hstep (by simp)
  | shutdown =>
    simp only [shutdown] at hstep
    split at hstep
    · obtain ⟨rfl, rfl⟩ := Prod.mk.inj (Option.some.inj hstep)
      refine hc.frame ?_ (fun _ => rfl) rfl rfl rfl rfl (by simp)
      rw [List.filterMap_append]
      show C.Holds _ (_ ++ []) _
      rw [List.append_nil]
      exact hc.events
    · exact absurd hstep (by simp)
  | driver i signal => exact hc.driverStep hstep
  | strategy j => exact hc.strategyStep hstep
  | executor k => exact hc.executorStep hstep
  | observer m events => exact hc.observerStep hstep

end Engines

/-! ### Runs -/

theorem Consistent.start [Executor τ A] [Observer ω E A] (collectors : Nat)
    (config : ReconnectConfig) (eventCapacity actionCapacity : Nat) (strategies : List S)
    (executors : List τ) (observers : List ω) :
    Consistent eventCapacity actionCapacity strategies executors observers []
      (Engine.start collectors config eventCapacity actionCapacity strategies executors observers :
        Engine C S τ ω E A) := by
  refine ⟨.new _, .new _, List.length_map _, List.length_map _, List.length_map _,
    by simp, fun j task ht => ?_, fun k task ht => ?_, fun m task ht => ?_⟩
  · obtain ⟨strategy, hs, rfl⟩ := List.getElem?_map ▸ ht |> Option.map_eq_some_iff.mp
    exact ⟨strategy, hs, ⟨rfl, rfl, rfl⟩, .subscribe _⟩
  · obtain ⟨executor, hs, rfl⟩ := List.getElem?_map ▸ ht |> Option.map_eq_some_iff.mp
    exact ⟨executor, hs, rfl, .subscribe _⟩
  · obtain ⟨observer, hs, rfl⟩ := List.getElem?_map ▸ ht |> Option.map_eq_some_iff.mp
    exact ⟨observer, hs, rfl, .subscribe _, .subscribe _⟩

/-- Whatever the interleaving, the engine is consistent with what has been seen of it. -/
theorem Consistent.of_run [Executor τ A] [Observer ω E A] {collectors : Nat}
    {config : ReconnectConfig} {eventCapacity actionCapacity : Nat} {strategies : List S}
    {executors : List τ} {observers : List ω} {acts : List (Act E)} {engine : Engine C S τ ω E A}
    (hrun : (Engine.start collectors config eventCapacity actionCapacity strategies executors
      observers).run acts = some (h, engine)) :
    Consistent eventCapacity actionCapacity strategies executors observers h engine :=
  run_rule (fun _ _ _ _ _ hc hstep => hc.step hstep) (Consistent.start ..) hrun

section Tasks

variable [Executor τ A] [Observer ω E A] {eventCapacity actionCapacity : Nat}
  {strategies : List S} {executors : List τ} {observers : List ω} {engine : Engine C S τ ω E A}

/-- Every strategy has its task. -/
theorem Consistent.exists_strategyTask
    (hc : Consistent eventCapacity actionCapacity strategies executors observers h engine)
    {strategy : S} (hj : strategies[j]? = some strategy) :
    ∃ task, engine.strategies[j]? = some task ∧
      StrategyOk engine.root eventCapacity j strategy h task := by
  have hlt := (List.getElem?_eq_some_iff.mp hj).1
  have hget := List.getElem?_eq_getElem (hc.strategies_length ▸ hlt)
  obtain ⟨strategy', hj', hok⟩ := hc.strategy j _ hget
  obtain rfl := Option.some.inj (hj'.symm.trans hj)
  exact ⟨_, hget, hok⟩

/-- Every executor has its task. -/
theorem Consistent.exists_executorTask
    (hc : Consistent eventCapacity actionCapacity strategies executors observers h engine)
    {executor : τ} (hk : executors[k]? = some executor) :
    ∃ task, engine.executors[k]? = some task ∧ ExecutorOk actionCapacity k executor h task := by
  have hlt := (List.getElem?_eq_some_iff.mp hk).1
  have hget := List.getElem?_eq_getElem (hc.executors_length ▸ hlt)
  obtain ⟨executor', hk', hok⟩ := hc.executor k _ hget
  obtain rfl := Option.some.inj (hk'.symm.trans hk)
  exact ⟨_, hget, hok⟩

/-- Every observer has its task. -/
theorem Consistent.exists_observerTask
    (hc : Consistent eventCapacity actionCapacity strategies executors observers h engine)
    {observer : ω} (hm : observers[m]? = some observer) :
    ∃ task, engine.observers[m]? = some task ∧
      ObserverOk eventCapacity actionCapacity m observer h task := by
  have hlt := (List.getElem?_eq_some_iff.mp hm).1
  have hget := List.getElem?_eq_getElem (hc.observers_length ▸ hlt)
  obtain ⟨observer', hm', hok⟩ := hc.observer m _ hget
  obtain rfl := Option.some.inj (hm'.symm.trans hm)
  exact ⟨_, hget, hok⟩

end Tasks

/-- What has been sent by a strategy is a first part of what it computes from what it was given. -/
theorem Processed.sent_prefix {root : Bool} {strategy : S} {events : List E} {sent : List A}
    {task : StrategyTask C S E A} (hp : Processed root strategy events sent task) :
    sent <+: (processEvents (syncedStrategy E A strategy) events).1 := by
  unfold Processed at hp
  cases hw : task.status with
  | unsynced =>
    rw [hw] at hp
    rw [hp.2.1]
    exact List.nil_prefix
  | waiting =>
    rw [hw] at hp
    simp only at hp
    exact ⟨[], by rw [hp, List.append_nil]⟩
  | processing event =>
    rw [hw] at hp
    obtain ⟨done, rfl, hp⟩ := hp
    rw [processEvents_concat, hp]
    exact List.prefix_append _ _
  | draining rest =>
    rw [hw] at hp
    simp only at hp
    rw [hp]
    exact List.prefix_append _ _
  | stopped =>
    rw [hw] at hp
    exact hp.1

omit [Strategy S E A] in
theorem exists_sender {a : A} (ha : a ∈ h.filterMap action?) : ∃ j, .action j a ∈ h := by
  obtain ⟨x, hx, hxa⟩ := List.mem_filterMap.mp ha
  cases x with
  | action j a' =>
    obtain rfl := Option.some.inj hxa
    exact ⟨j, hx⟩
  | _ => exact absurd hxa (by simp [action?])

/-- Whatever the interleaving of the tasks: every consumer is given what was sent, in order, each
message at most once, and all of it as long as the channel can hold it; a strategy sends what it
computes from the events it was given, in order; an executor executes the actions it was given, in
order, each once, and an observer observes what it was given; and no executor is given an action
that no strategy computed. -/
theorem engine_provenance [Executor τ A] [Observer ω E A] {collectors : Nat}
    {config : ReconnectConfig} {eventCapacity actionCapacity : Nat} {strategies : List S}
    {executors : List τ} {observers : List ω} {acts : List (Act E)} {h : List (Happening E A)}
    {engine : Engine C S τ ω E A}
    (hrun : (Engine.start collectors config eventCapacity actionCapacity strategies executors
      observers).run acts = some (h, engine)) :
    (∀ (j : Nat) strategy, strategies[j]? = some strategy →
      Relayed eventCapacity (h.filterMap event?) (h.filterMap (toStrategy? j)) ∧
      h.filterMap (actionOf? j)
        <+: (processEvents (syncedStrategy E A strategy) (items (h.filterMap (toStrategy? j)))).1) ∧
    (∀ (k : Nat) executor, executors[k]? = some executor →
      Relayed actionCapacity (h.filterMap action?) (h.filterMap (toExecutor? k)) ∧
      ∃ task, engine.executors[k]? = some task ∧
        Executed executor (items (h.filterMap (toExecutor? k))) task) ∧
    (∀ (m : Nat) observer, observers[m]? = some observer →
      Relayed eventCapacity (h.filterMap event?) (h.filterMap (eventToObserver? m)) ∧
      Relayed actionCapacity (h.filterMap action?) (h.filterMap (actionToObserver? m)) ∧
      ∃ task, engine.observers[m]? = some task ∧
        Observed observer (seen (h.filterMap (toObserver? m))) task) ∧
    ∀ a ∈ h.filterMap action?, ∃ (j : Nat) (strategy : S), strategies[j]? = some strategy ∧
      a ∈ (processEvents (syncedStrategy E A strategy)
        (items (h.filterMap (toStrategy? j)))).1 := by
  have hc := Consistent.of_run hrun
  refine ⟨fun j strategy hj => ?_, fun k executor hk => ?_, fun m observer hm => ?_,
    fun a ha => ?_⟩
  · obtain ⟨task, -, hok⟩ := hc.exists_strategyTask hj
    exact ⟨hok.followed.relayed, hok.processed.sent_prefix⟩
  · obtain ⟨task, hget, hok⟩ := hc.exists_executorTask hk
    exact ⟨hok.followed.relayed, task, hget, hok.executed⟩
  · obtain ⟨task, hget, hok⟩ := hc.exists_observerTask hm
    exact ⟨hok.events.relayed, hok.actions.relayed, task, hget, hok.observed⟩
  -- an action has a sender, whose actions are computed ones
  · obtain ⟨j, hj⟩ := exists_sender ha
    have hlt := hc.senders j a hj
    obtain ⟨task, -, hok⟩ := hc.exists_strategyTask (List.getElem?_eq_getElem hlt)
    exact ⟨j, _, List.getElem?_eq_getElem hlt, hok.processed.sent_prefix.subset
      (List.mem_filterMap.mpr ⟨_, hj, by simp [actionOf?]⟩)⟩

/-! ### A run in which a consumer lags -/

/-- A strategy that offers each event, and the sum of all so far.  It needs a small sum to start
with. -/
structure Adder where
  total : Nat
  deriving DecidableEq

instance : Strategy Adder Nat Nat where
  syncState strategy :=
    if strategy.total < 100 then (.ok (), strategy) else (.error "too large", strategy)
  processEvent strategy event :=
    if event = 0 then (.error "nothing to add", strategy)
    else (.ok [event, strategy.total + event], ⟨strategy.total + event⟩)

/-- An executor that writes the actions down. -/
structure Ledger where
  entries : List Nat
  deriving DecidableEq

instance : Executor Ledger Nat where
  execute ledger action := (.ok (), ⟨ledger.entries ++ [action]⟩)

/-- An observer that counts the events and the actions. -/
structure Counter where
  events : Nat
  actions : Nat
  deriving DecidableEq

instance : Observer Counter Nat Nat where
  observeEvent counter _ := { counter with events := counter.events + 1 }
  observeAction counter _ := { counter with actions := counter.actions + 1 }

theorem two_le_u32Max : 2 ≤ u32Max := by decide

theorem hundred_le_durationMax : 100 ≤ durationMax := by decide

/-- One collector, one strategy, one executor, one observer, and room for one event. -/
def smallEngine : Engine Broadcast.channel Adder Ledger Counter Nat Nat :=
  .start 1 ⟨2, 100, 1000, two_le_u32Max, hundred_le_durationMax⟩ 1 4 [⟨0⟩] [⟨[]⟩] [⟨0, 0⟩]

/-- The strategy is behind when the second event is sent. -/
def laggingActs : List (Act Nat) :=
  [.sync, .spawnCollectors, .driver 0 .subscribed, .driver 0 (.delivered 5),
    .driver 0 (.delivered 7), .observer 0 true, .strategy 0, .strategy 0, .strategy 0, .strategy 0,
    .executor 0, .executor 0, .strategy 0, .strategy 0, .observer 0 true, .observer 0 true]

theorem engine_provenance_lagging : ∃ h engine, smallEngine.run laggingActs = some (h, engine) ∧
    h.filterMap event? = [5, 7] ∧ h.filterMap (toStrategy? 0) = [.lagged 1, .item 7] ∧
    h.filterMap (actionOf? 0) <+: (processEvents (⟨0⟩ : Adder) [7] : List Nat × Adder).1 ∧
    ∀ a ∈ h.filterMap action?, ∃ (j : Nat) (strategy : Adder), [(⟨0⟩ : Adder)][j]? = some strategy ∧
      a ∈ (processEvents (syncedStrategy Nat Nat strategy)
        (items (h.filterMap (toStrategy? j))) : List Nat × Adder).1 := by
  have hrun := engine_provenance (S := Adder) (E := Nat) (A := Nat)
    (rfl : smallEngine.run laggingActs = some (_, _))
  exact ⟨_, _, rfl, rfl, rfl, (hrun.1 0 ⟨0⟩ rfl).2, hrun.2.2.2⟩

end Engine

end ArtemisLight
