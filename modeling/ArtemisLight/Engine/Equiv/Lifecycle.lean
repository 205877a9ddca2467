import ArtemisLight.Engine.Equiv.Termination
import Mathlib

/-!
# Startup and shutdown

Before the collectors run there is nothing to receive and nobody to cancel the token, so nothing is
seen until every strategy is synced.  Once the root token is cancelled no consumer is given anything
more, and each of them stops within a few steps.

* `startup_precedes_events`: `Started` is what has happened by each phase, and `Started.step` keeps
  it; the one act that matters is `Started.sync`, because before the collectors run no stream is
  over (`not_over_of_starting`) and no consumer can step (`not_consumes_of_starting`).
* `shutdown_stops_consumers`: a cancelled token is the root token or cancels it (`root_of_step`,
  `root_of_cancelled`).  From then on `stepsLeft` decreases with each consumer step
  (`consumer_steps`), which nothing else delays (`upstream_frame`), and a consumer that has not
  stopped can go on (`stopped_of_stuck`); `run_after_root` is the induction.
-/

namespace ArtemisLight

namespace Engine

open Happening (event? action? toStrategy? toExecutor? eventToObserver? actionToObserver?)

variable {C : Channel} {S τ ω E A : Type} [Strategy S E A] [Executor τ A] [Observer ω E A]
  {eventCapacity actionCapacity : Nat} {strategies : List S} {executors : List τ}
  {observers : List ω} {h h' : List (Happening E A)} {engine engine' : Engine C S τ ω E A}
  {j k m : Nat}

/-! ### Startup -/

/-- The verdict of a strategy's `sync_state`. -/
def syncs (E A : Type) [Strategy S E A] (strategy : S) : Except Error Unit :=
  (Strategy.syncState E A strategy : Except Error Unit × S).1

/-- How far the strategies are synced: the first `n`, and no others. -/
structure SyncedUpTo (n : Nat) (strategies : List S) (tasks : List (StrategyTask C S E A)) :
    Prop where
  ok : ∀ j < n, ∀ strategy, strategies[j]? = some strategy → ∃ u, syncs E A strategy = .ok u
  waiting : ∀ j < n, ∀ task, tasks[j]? = some task → task.status = .waiting
  unsynced : ∀ j, n ≤ j → ∀ task, tasks[j]? = some task → task.status = .unsynced

/-- What has happened by the phase. -/
def Started (strategies : List S) (h : List (Happening E A)) (engine : Engine C S τ ω E A) : Prop :=
  match engine.phase with
  | .starting => h = [] ∧ engine.root = false ∧ engine.drivers = [] ∧
      (∃ n, SyncedUpTo n strategies engine.strategies)
  | .running => ∀ strategy ∈ strategies, ∃ u, syncs E A strategy = .ok u
  | .failed e => h = [] ∧ engine.root = false ∧
      ∃ (j : Nat) (strategy : S), strategies[j]? = some strategy ∧
        syncs E A strategy = .error e ∧
        ∀ i < j, ∀ strategy, strategies[i]? = some strategy → ∃ u, syncs E A strategy = .ok u

omit [Executor τ A] [Observer ω E A] in
theorem Started.start (collectors : Nat) (config : ReconnectConfig)
    (eventCapacity actionCapacity : Nat) (strategies : List S) (executors : List τ)
    (observers : List ω) :
    Started strategies [] (Engine.start collectors config eventCapacity actionCapacity strategies
      executors observers : Engine C S τ ω E A) := by
  refine ⟨rfl, rfl, rfl, 0, ?_⟩
  refine ⟨fun j hj => absurd hj (by simp), fun j hj => absurd hj (by simp), fun j _ task ht => ?_⟩
  obtain ⟨strategy, -, rfl⟩ := List.getElem?_map ▸ ht |> Option.map_eq_some_iff.mp
  rfl

omit [Strategy S E A] [Executor τ A] [Observer ω E A] in
/-- While the engine starts, no stream is over. -/
theorem not_over_of_starting (hphase : engine.phase = .starting) (hroot : engine.root = false)
    (receiver : C.Receiver) : ¬ engine.EventsOver receiver ∧ ¬ engine.ActionsOver receiver := by
  refine ⟨?_, ?_⟩
  · rintro (hr | ⟨hclosed, -⟩)
    · exact absurd (hr.symm.trans hroot) (by simp)
    · exact absurd (hphase.symm.trans (eventsClosed_iff.mp hclosed).1) (by simp)
  · rintro (hr | ⟨hclosed, -⟩)
    · exact absurd (hr.symm.trans hroot) (by simp)
    · exact absurd (hphase.symm.trans (actionsClosed_iff.mp hclosed).1) (by simp)

/-- While the engine starts, no consumer can take a step. -/
theorem not_consumes_of_starting
    (hc : Consistent eventCapacity actionCapacity strategies executors observers [] engine)
    (ho : engine.Orderly) (hphase : engine.phase = .starting) (hroot : engine.root = false)
    {n : Nat} (hn : SyncedUpTo n strategies engine.strategies) : ¬ Consumes engine' engine := by
  have hover := not_over_of_starting hphase hroot
  rintro ⟨act, x, hact, hstep⟩
  unfold Engine.step at hstep
  rw [if_neg (phase_of_step hstep)] at hstep
  cases act with
  | strategy j =>
    obtain ⟨task, task', actions, ht, hs, -⟩ := strategyStep_cases hstep
    obtain ⟨strategy, -, hok⟩ := hc.strategy j task ht
    -- a strategy waits, or is not spawned yet
    have hstatus : task.status = .waiting ∨ task.status = .unsynced := by
      rcases Nat.lt_or_ge j n with hj | hj
      · exact Or.inl (hn.waiting j hj task ht)
      · exact Or.inr (hn.unsynced j hj task ht)
    cases hs with
    | given _ _ _ _ hrecv =>
      exact absurd ((hc.events.recv_nil hok.followed.le).symm.trans hrecv) (by simp)
    | ended _ hend => exact (hover _).1 hend
    | processed _ _ _ hw _ =>
      rcases hstatus with hs | hs <;> exact absurd (hw.symm.trans hs) (by simp)
    | rejected _ _ _ hw _ =>
      rcases hstatus with hs | hs <;> exact absurd (hw.symm.trans hs) (by simp)
    | cut _ hw _ => rcases hstatus with hs | hs <;> exact absurd (hw.symm.trans hs) (by simp)
    | drained hw _ => rcases hstatus with hs | hs <;> exact absurd (hw.symm.trans hs) (by simp)
    | sent _ _ hw _ => rcases hstatus with hs | hs <;> exact absurd (hw.symm.trans hs) (by simp)
  | executor k =>
    obtain ⟨task, task', ht, hs, -⟩ := executorStep_cases hstep
    obtain ⟨executor, -, hok⟩ := hc.executor k task ht
    cases hs with
    | given _ _ _ _ hrecv =>
      exact absurd ((hc.actions.recv_nil hok.followed.le).symm.trans hrecv) (by simp)
    | ended _ hend => exact (hover _).2 hend
    | executed _ hw =>
      -- nothing was given to it that it could execute
      have he := hok.executed
      unfold Executed at he
      rw [hw] at he
      obtain ⟨done, hdone, -⟩ := he
      exact absurd (congrArg List.length hdone) (by simp [items])
  | observer m events =>
    obtain ⟨task, task', ht, hs, -⟩ := observerStep_cases hstep
    obtain ⟨observer, -, hok⟩ := hc.observer m task ht
    cases hs with
    | givenEvent _ _ _ _ _ hrecv =>
      exact absurd ((hc.events.recv_nil hok.events.le).symm.trans hrecv) (by simp)
    | givenAction _ _ _ _ _ hrecv =>
      exact absurd ((hc.actions.recv_nil hok.actions.le).symm.trans hrecv) (by simp)
    | eventsEnded _ _ hend => exact (hover _).1 hend
    | actionsEnded _ _ hend => exact (hover _).2 hend
    | ended hw =>
      exact (hover _).1 (ho.observerEvents task (List.mem_of_getElem? ht) (by rw [hw]; rfl))
    | observed _ _ _ hw =>
      have hob := hok.observed
      unfold Observed at hob
      rw [hw] at hob
      obtain ⟨done, hdone, -⟩ := hob
      exact absurd (congrArg List.length hdone) (by simp [seen])
  | _ => exact absurd hact (by simp [Act.isConsumer])

/-- The next strategy is synced: the first ones and this one are, or this is the first one that
fails. -/
theorem Started.sync
    (hc : Consistent eventCapacity actionCapacity strategies executors observers h engine)
    (hs : Started strategies h engine) (hstep : engine.sync = some (h', engine')) :
    Started strategies (h ++ h') engine' := by
  obtain ⟨rfl, hphase, j, task, ht, hunsynced, hfirst, hnext⟩ := sync_cases hstep
  rw [List.append_nil]
  unfold Started at hs
  rw [hphase] at hs
  obtain ⟨rfl, hroot, hdrivers, n, hn⟩ := hs
  -- the strategies are synced one after the other, so this is the first one that is not
  have hjn : j = n := by
    rcases Nat.lt_trichotomy j n with hlt | heq | hgt
    · exact absurd (hn.waiting j hlt task ht) (by rw [hunsynced]; simp)
    · exact heq
    · have hlen := (List.getElem?_eq_some_iff.mp ht).1
      have hget := List.getElem?_eq_getElem (hgt.trans hlen)
      exact absurd (hn.unsynced n (Nat.le_refl _) _ hget) (hfirst n hgt _ hget)
  subst hjn
  obtain ⟨strategy, hst, hok⟩ := hc.strategy j task ht
  have hp := hok.processed
  unfold Processed at hp
  rw [hunsynced] at hp
  obtain ⟨-, -, rfl⟩ := hp
  rcases hnext with ⟨u, synced, hsync, rfl⟩ | ⟨e, synced, hsync, rfl⟩
  · have hsyncs : syncs E A task.strategy = .ok u := by rw [syncs, hsync]
    unfold Started
    rw [hphase]
    refine ⟨rfl, hroot, hdrivers, j + 1, fun i hi strategy hsi => ?_, fun i hi t hti => ?_,
      fun i hi t hti => ?_⟩
    · rcases Nat.lt_succ_iff_lt_or_eq.mp hi with hlt | rfl
      · exact hn.ok i hlt strategy hsi
      · obtain rfl := Option.some.inj (hst.symm.trans hsi)
        exact ⟨u, hsyncs⟩
    · rcases Nat.lt_succ_iff_lt_or_eq.mp hi with hlt | rfl
      · simp only [List.getElem?_set_ne (Nat.ne_of_gt hlt)] at hti
        exact hn.waiting i hlt t hti
      · simp only [List.getElem?_set_self (List.getElem?_eq_some_iff.mp ht).1] at hti
        obtain rfl := Option.some.inj hti
        rfl
    · simp only [List.getElem?_set_ne (Nat.ne_of_lt hi)] at hti
      exact hn.unsynced i (Nat.le_of_succ_le hi) t hti
  · exact ⟨rfl, hroot, j, task.strategy, hst, by rw [syncs, hsync], hn.ok⟩

/-- Every act respects the startup. -/
theorem Started.step {act : Act E}
    (hc : Consistent eventCapacity actionCapacity strategies executors observers h engine)
    (ho : engine.Orderly) (hs : Started strategies h engine)
    (hstep : engine.step act = some (h', engine')) : Started strategies (h ++ h') engine' := by
  have hfull := hstep
  unfold Engine.step at hstep
  rw [if_neg (phase_of_step hstep)] at hstep
  cases hphase : engine.phase with
  | failed e =>
    refine absurd ?_ (phase_of_step hfull)
    rw [hphase]
    rfl
  | running =>
    unfold Started at hs
    rw [hphase] at hs
    have hkeep : engine'.phase = .running → Started strategies (h ++ h') engine' := by
      intro hp
      unfold Started
      rw [hp]
      exact hs
    -- no step leaves the running phase
    apply hkeep
    cases act with
    | sync => exact absurd (hphase.symm.trans (sync_cases hstep).2.1) (by simp)
    | syncCancelled => simp [syncCancelled, hphase] at hstep
    | spawnCollectors => simp [spawnCollectors, hphase] at hstep
    | shutdown =>
      simp only [shutdown, hphase, if_true] at hstep
      obtain ⟨-, rfl⟩ := Prod.mk.inj (Option.some.inj hstep)
      rfl
    | driver i signal =>
      obtain ⟨_, _, -, -, -, hd⟩ := driverStep_cases hstep
      cases hd <;> exact hphase
    | strategy j => exact (consumer_frame rfl hfull).1.trans hphase
    | executor k => exact (consumer_frame rfl hfull).1.trans hphase
    | observer m events => exact (consumer_frame rfl hfull).1.trans hphase
  | starting =>
    have hstarted := hs
    unfold Started at hs
    rw [hphase] at hs
    obtain ⟨rfl, hroot, hdrivers, n, hn⟩ := hs
    -- only the syncs and the spawn are possible here
    have hstuck : ∀ {act : Act E}, act.isConsumer = true →
        engine.step act ≠ some (h', engine') := fun hact hstep =>
      not_consumes_of_starting hc ho hphase hroot hn ⟨_, h', hact, hstep⟩
    cases act with
    | sync => exact hstarted.sync hc hstep
    | syncCancelled => simp [syncCancelled, hroot] at hstep
    | spawnCollectors =>
      simp only [spawnCollectors] at hstep
      split at hstep
      · rename_i hguard
        obtain ⟨rfl, rfl⟩ := Prod.mk.inj (Option.some.inj hstep)
        intro strategy hmem
        obtain ⟨j, hj⟩ := List.mem_iff_getElem?.mp hmem
        rcases Nat.lt_or_ge j n with hlt | hge
        · exact hn.ok j hlt strategy hj
        -- the guard leaves no strategy unsynced
        · obtain ⟨task, hget, -⟩ := hc.exists_strategyTask hj
          have hall := List.all_eq_true.mp hguard.2 _ (List.mem_of_getElem? hget)
          rw [hn.unsynced j hge _ hget] at hall
          exact absurd hall (by simp [StrategyTask.Status.isUnsynced])
      · exact absurd hstep (by simp)
    | shutdown => simp [shutdown, hphase] at hstep
    | driver i signal =>
      obtain ⟨driver, _, hd, -, -, -⟩ := driverStep_cases hstep
      rw [hdrivers] at hd
      exact absurd hd (by simp)
    | strategy j => exact absurd hfull (hstuck rfl)
    | executor k => exact absurd hfull (hstuck rfl)
    | observer m events => exact absurd hfull (hstuck rfl)

omit [Executor τ A] [Observer ω E A] in
/-- Nothing is seen, and the root token is not cancelled, unless the engine runs. -/
theorem Started.running (hs : Started strategies h engine) (hseen : h ≠ [] ∨ engine.root = true) :
    engine.phase = .running := by
  unfold Started at hs
  cases hphase : engine.phase with
  | running => rfl
  | starting =>
    rw [hphase] at hs
    obtain ⟨rfl, hroot, -, -⟩ := hs
    simp [hroot] at hseen
  | failed e =>
    rw [hphase] at hs
    obtain ⟨rfl, hroot, -⟩ := hs
    simp [hroot] at hseen

section Runs

variable {collectors : Nat} {config : ReconnectConfig} {acts acts' : List (Act E)}

theorem Started.of_run
    (hrun : (Engine.start collectors config eventCapacity actionCapacity strategies executors
      observers).run acts = some (h, engine)) : Started strategies h engine :=
  (run_rule (I := fun h engine =>
      Consistent eventCapacity actionCapacity strategies executors observers h engine ∧
        engine.Orderly ∧ Started strategies h engine)
    (fun _ _ _ _ _ ⟨hc, ho, hs⟩ hstep => ⟨hc.step hstep, ho.step hstep, hs.step hc ho hstep⟩)
    ⟨Consistent.start .., Orderly.start .., Started.start ..⟩ hrun).2.2

/-- Nothing is seen before the collectors run, and they run only if every strategy's `sync_state`
succeeds.  `run` fails only with the error of the first strategy whose `sync_state` fails, never
because it is cancelled; then nothing is ever seen. -/
theorem startup_precedes_events
    (hrun : (Engine.start collectors config eventCapacity actionCapacity strategies executors
      observers).run acts = some (h, engine)) :
    (h ≠ [] ∨ engine.root = true → engine.phase = .running) ∧
    (engine.phase = .running → ∀ strategy ∈ strategies, ∃ u, syncs E A strategy = .ok u) ∧
    (∀ e, engine.phase = .failed e → ∃ (j : Nat) (strategy : S),
      strategies[j]? = some strategy ∧ syncs E A strategy = .error e ∧
        ∀ i < j, ∀ strategy, strategies[i]? = some strategy → ∃ u, syncs E A strategy = .ok u) := by
  have hs := Started.of_run hrun
  refine ⟨hs.running, fun hphase => ?_, fun e hphase => ?_⟩
  · unfold Started at hs
    rw [hphase] at hs
    exact hs
  · unfold Started at hs
    rw [hphase] at hs
    exact hs.2.2

end Runs

/-- The second strategy fails to sync. -/
theorem startup_precedes_events_failing :
    ∃ engine : Engine Broadcast.channel Adder Ledger Counter Nat Nat,
    (Engine.start 1 ⟨2, 100, 1000, two_le_u32Max, hundred_le_durationMax⟩ 1 4 [⟨0⟩, ⟨100⟩, ⟨1⟩]
      [⟨[]⟩] [⟨0, 0⟩]).run [.sync, .sync] = some ([], engine) ∧
    engine.phase = .failed "too large" ∧
    ∃ (j : Nat) (strategy : Adder), [(⟨0⟩ : Adder), ⟨100⟩, ⟨1⟩][j]? = some strategy ∧
      syncs Nat Nat strategy = .error "too large" := by
  have hstart := startup_precedes_events (C := Broadcast.channel) (S := Adder) (τ := Ledger)
    (ω := Counter) (E := Nat) (A := Nat) (rfl : (Engine.start 1
      ⟨2, 100, 1000, two_le_u32Max, hundred_le_durationMax⟩ 1 4 [⟨0⟩, ⟨100⟩, ⟨1⟩] [⟨[]⟩]
      [⟨0, 0⟩]).run [.sync, .sync] = some (_, _))
  obtain ⟨j, strategy, hj, he, -⟩ := hstart.2.2 "too large" rfl
  exact ⟨_, rfl, rfl, j, strategy, hj, he⟩

/-! ### Shutdown -/

theorem sum_map_le {α : Type} {f : α → Nat} {bound : Nat} (hf : ∀ x, f x ≤ bound) {l : List α} :
    (l.map f).sum ≤ l.length * bound := by
  have := List.sum_le_card_nsmul (l.map f) bound fun y hy => by
    obtain ⟨x, -, rfl⟩ := List.mem_map.mp hy
    exact hf x
  simpa using this

/-- The steps that a strategy's task takes until it stops, once the root token is cancelled. -/
def strategySteps (task : StrategyTask C S E A) : Nat :=
  match task.status with
  | .processing _ => 2
  | .stopped => 0
  | _ => 1

/-- The steps that an executor's task takes until it stops. -/
def executorSteps (task : ExecutorTask C τ A) : Nat :=
  match task.status with
  | .executing _ => 2
  | .waiting => 1
  | .stopped => 0

/-- The steps that an observer's task takes until it stops. -/
def observerSteps (task : ObserverTask C ω E A) : Nat :=
  match task.status with
  | .observing _ a b => (!a).toNat + (!b).toNat + 2
  | .waiting a b => (!a).toNat + (!b).toNat + 1
  | .stopped => 0

/-- The steps that the consumers take until they have all stopped. -/
def stepsLeft (engine : Engine C S τ ω E A) : Nat :=
  (engine.strategies.map strategySteps).sum + (engine.executors.map executorSteps).sum +
    (engine.observers.map observerSteps).sum

/-- Neither given to a consumer, nor sent by one. -/
def Happening.isUpstream : Happening E A → Bool
  | .event _ _ | .cancelled _ => true
  | _ => false

/-- Once the root token is cancelled, a consumer only goes towards its end. -/
theorem consumer_steps {act : Act E} (hact : act.isConsumer = true) (hroot : engine.root = true)
    (hstep : engine.step act = some (h', engine')) :
    h' = [] ∧ engine'.stepsLeft < engine.stepsLeft := by
  -- nothing is given or sent under a cancelled token
  have hfalse : ∀ {P : Prop}, engine.root = false → P := fun hr =>
    absurd (hr.symm.trans hroot) (by simp)
  unfold Engine.step at hstep
  rw [if_neg (phase_of_step hstep)] at hstep
  cases act with
  | strategy j =>
    obtain ⟨task, task', actions, ht, hs, rfl⟩ := strategyStep_cases hstep
    have hsum := sum_map_set strategySteps task' ht
    have hless : h' = [] ∧ strategySteps task' < strategySteps task := by
      cases hs with
      | given _ _ _ hr _ => exact hfalse hr
      | ended hw _ => exact ⟨rfl, by simp [strategySteps, hw]⟩
      | processed _ _ _ hw _ => exact ⟨rfl, by simp [strategySteps, hw]⟩
      | rejected _ _ _ hw _ => exact ⟨rfl, by simp [strategySteps, hw]⟩
      | cut _ hw _ => exact ⟨rfl, by simp [strategySteps, hw]⟩
      | drained _ hr => exact hfalse hr
      | sent _ _ _ hr => exact hfalse hr
    refine ⟨hless.1, ?_⟩
    simp only [stepsLeft]
    omega
  | executor k =>
    obtain ⟨task, task', ht, hs, rfl⟩ := executorStep_cases hstep
    have hsum := sum_map_set executorSteps task' ht
    have hless : h' = [] ∧ executorSteps task' < executorSteps task := by
      cases hs with
      | given _ _ _ hr _ => exact hfalse hr
      | ended hw _ => exact ⟨rfl, by simp [executorSteps, hw]⟩
      | executed _ hw => exact ⟨rfl, by simp [executorSteps, hw]⟩
    refine ⟨hless.1, ?_⟩
    simp only [stepsLeft]
    omega
  | observer m events =>
    obtain ⟨task, task', ht, hs, rfl⟩ := observerStep_cases hstep
    have hsum := sum_map_set observerSteps task' ht
    have hless : h' = [] ∧ observerSteps task' < observerSteps task := by
      cases hs with
      | givenEvent _ _ _ _ hr _ => exact hfalse hr
      | givenAction _ _ _ _ hr _ => exact hfalse hr
      | eventsEnded _ hw _ => exact ⟨rfl, by simp [observerSteps, hw]⟩
      | actionsEnded _ hw _ => exact ⟨rfl, by simp [observerSteps, hw]⟩
      | ended hw => exact ⟨rfl, by simp [observerSteps, hw]⟩
      | observed _ _ _ hw => exact ⟨rfl, by simp [observerSteps, hw]⟩
    refine ⟨hless.1, ?_⟩
    simp only [stepsLeft]
    omega
  | _ => exact absurd hact (by simp [Act.isConsumer])

/-- Whatever else is done while the collectors run leaves the consumers as they are. -/
theorem upstream_frame {act : Act E} (hact : act.isConsumer = false)
    (hphase : engine.phase = .running) (hstep : engine.step act = some (h', engine')) :
    (∀ x ∈ h', x.isUpstream = true) ∧ engine'.stepsLeft = engine.stepsLeft ∧
      (engine.root = true → engine'.root = true) ∧ engine'.phase = .running := by
  unfold Engine.step at hstep
  rw [if_neg (phase_of_step hstep)] at hstep
  cases act with
  | sync => exact absurd (hphase.symm.trans (sync_cases hstep).2.1) (by simp)
  | syncCancelled => simp [syncCancelled, hphase] at hstep
  | spawnCollectors => simp [spawnCollectors, hphase] at hstep
  | shutdown =>
    simp only [shutdown, hphase, if_true] at hstep
    obtain ⟨rfl, rfl⟩ := Prod.mk.inj (Option.some.inj hstep)
    exact ⟨by simp [Happening.isUpstream], rfl, fun _ => rfl, rfl⟩
  | driver i signal =>
    obtain ⟨_, _, -, -, -, hd⟩ := driverStep_cases hstep
    cases hd with
    | quiet => exact ⟨by simp, rfl, id, hphase⟩
    | sent event _ => exact ⟨by simp [Happening.isUpstream], rfl, id, hphase⟩
    | escalated _ => exact ⟨by simp [Happening.isUpstream], rfl, fun _ => rfl, hphase⟩
  | _ => exact absurd hact (by simp [Act.isConsumer])

/-- A run after the root token is cancelled: every consumer step brings the consumers closer to
their end, and no other step takes them away from it. -/
theorem run_after_root {acts' : List (Act E)} (hphase : engine.phase = .running)
    (hroot : engine.root = true) (hrun : engine.run acts' = some (h', engine')) :
    (∀ x ∈ h', x.isUpstream = true) ∧ engine'.phase = .running ∧ engine'.root = true ∧
      (acts'.filter Act.isConsumer).length + engine'.stepsLeft ≤ engine.stepsLeft := by
  induction acts' generalizing engine h' with
  | nil =>
    obtain ⟨rfl, rfl⟩ := Prod.mk.inj (Option.some.inj hrun)
    exact ⟨by simp, hphase, hroot, by simp⟩
  | cons act acts ih =>
    obtain ⟨x, next, xs, hs, hrest, rfl⟩ := run_cons_iff.mp hrun
    cases hact : act.isConsumer with
    | true =>
      obtain ⟨rfl, hless⟩ := consumer_steps hact hroot hs
      obtain ⟨hp, hr⟩ := consumer_frame hact hs
      obtain ⟨hup, hp', hr', hle⟩ := ih (hp.trans hphase) (hr.trans hroot) hrest
      refine ⟨hup, hp', hr', ?_⟩
      rw [List.filter_cons_of_pos hact, List.length_cons]
      omega
    | false =>
      obtain ⟨hx, heq, hr, hp⟩ := upstream_frame hact hphase hs
      obtain ⟨hup, hp', hr', hle⟩ := ih hp (hr hroot) hrest
      refine ⟨fun y hy => ?_, hp', hr', ?_⟩
      · rcases List.mem_append.mp hy with hy | hy
        · exact hx y hy
        · exact hup y hy
      · rw [List.filter_cons_of_neg (by simp [hact])]
        omega

/-- A task that has not stopped can go on once the root token is cancelled. -/
theorem stopped_of_stuck (ho : engine.Orderly) (hphase : engine.phase = .running)
    (hroot : engine.root = true) (hstuck : ∀ next, ¬ Consumes next engine) :
    (∀ task ∈ engine.strategies, task.status = .stopped) ∧
    (∀ task ∈ engine.executors, task.status = .stopped) ∧
    ∀ task ∈ engine.observers, task.status = .stopped := by
  have hnone : ∀ act : Act E, act.isConsumer = true → engine.step act = none := by
    intro act hact
    rcases hs : engine.step act with _ | ⟨x, next⟩
    · rfl
    · exact absurd ⟨act, x, hact, hs⟩ (hstuck next)
  have hlive : ¬ engine.phase.hasFailed = true := by
    rw [hphase]
    simp [Phase.hasFailed]
  refine ⟨fun task hm => ?_, fun task hm => ?_, fun task hm => ?_⟩
  · obtain ⟨j, ht⟩ := List.mem_iff_getElem?.mp hm
    have hs := hnone (.strategy j) rfl
    unfold Engine.step at hs
    rw [if_neg hlive] at hs
    simp only [strategyStep, ht, intoStream, hroot, if_true] at hs
    cases hw : task.status with
    | unsynced => exact absurd hw (ho.synced hphase task hm)
    | stopped => rfl
    | processing event =>
      rw [hw] at hs
      simp only at hs
      split at hs <;> exact absurd hs (by simp)
    | _ =>
      rw [hw] at hs
      exact absurd hs (by simp)
  · obtain ⟨k, ht⟩ := List.mem_iff_getElem?.mp hm
    have hs := hnone (.executor k) rfl
    unfold Engine.step at hs
    rw [if_neg hlive] at hs
    simp only [executorStep, ht, intoStream, hroot, if_true] at hs
    cases hw : task.status with
    | stopped => rfl
    | _ =>
      rw [hw] at hs
      exact absurd hs (by simp)
  · obtain ⟨m, ht⟩ := List.mem_iff_getElem?.mp hm
    have hs := hnone (.observer m true) rfl
    have hs' := hnone (.observer m false) rfl
    unfold Engine.step at hs hs'
    rw [if_neg hlive] at hs hs'
    simp only [observerStep, ht, intoStream, hroot, if_true] at hs hs'
    cases hw : task.status with
    | stopped => rfl
    | observing x a b =>
      rw [hw] at hs
      exact absurd hs (by simp)
    | waiting a b =>
      rw [hw] at hs hs'
      -- one of its two streams could still end
      cases a <;> cases b <;> simp at hs hs'

/-- Whoever cancels a token has the root token cancelled, and nobody revives it. -/
theorem root_of_step {act : Act E} (hstep : engine.step act = some (h', engine')) :
    (engine.root = true → engine'.root = true) ∧
      ∀ token, .cancelled token ∈ h' → engine'.root = true := by
  unfold Engine.step at hstep
  rw [if_neg (phase_of_step hstep)] at hstep
  -- only a shutdown and an escalation cancel the token, and nothing takes it back
  cases act with
  | sync =>
    obtain ⟨rfl, -, _, _, -, -, -, ⟨_, _, -, rfl⟩ | ⟨_, _, -, rfl⟩⟩ :=
      sync_cases hstep
    · exact ⟨id, by simp⟩
    · exact ⟨id, by simp⟩
  | syncCancelled =>
    simp only [syncCancelled] at hstep
    split at hstep
    · obtain ⟨rfl, rfl⟩ := Prod.mk.inj (Option.some.inj hstep)
      exact ⟨id, by simp⟩
    · exact absurd hstep (by simp)
  | spawnCollectors =>
    simp only [spawnCollectors] at hstep
    split at hstep
    · obtain ⟨rfl, rfl⟩ := Prod.mk.inj (Option.some.inj hstep)
      exact ⟨id, by simp⟩
    · exact absurd hstep (by simp)
  | shutdown =>
    simp only [shutdown] at hstep
    split at hstep
    · obtain ⟨rfl, rfl⟩ := Prod.mk.inj (Option.some.inj hstep)
      exact ⟨fun _ => rfl, fun _ _ => rfl⟩
    · exact absurd hstep (by simp)
  | driver i signal =>
    obtain ⟨_, _, -, -, -, hd⟩ := driverStep_cases hstep
    cases hd with
    | quiet => exact ⟨id, by simp⟩
    | sent _ _ => exact ⟨id, by simp⟩
    | escalated _ => exact ⟨fun _ => rfl, fun _ _ => rfl⟩
  | strategy j =>
    obtain ⟨_, _, _, -, hs, rfl⟩ := strategyStep_cases hstep
    exact ⟨id, fun token ht => by cases hs <;> simp at ht⟩
  | executor k =>
    obtain ⟨_, _, -, hs, rfl⟩ := executorStep_cases hstep
    exact ⟨id, fun token ht => by cases hs <;> simp at ht⟩
  | observer m events =>
    obtain ⟨_, _, -, hs, rfl⟩ := observerStep_cases hstep
    exact ⟨id, fun token ht => by cases hs <;> simp at ht⟩

/-- The root token is cancelled with the fatal one, and stays cancelled. -/
theorem root_of_cancelled {collectors : Nat} {config : ReconnectConfig} {acts : List (Act E)}
    {token : Token}
    (hrun : (Engine.start collectors config eventCapacity actionCapacity strategies executors
      observers).run acts = some (h, engine)) (hcancelled : .cancelled token ∈ h) :
    engine.root = true := by
  refine run_rule (I := fun h (engine : Engine C S τ ω E A) =>
    ∀ token, .cancelled token ∈ h → engine.root = true) ?_ (h := []) (by simp) hrun token hcancelled
  intro h engine act x next hI hstep token hmem
  obtain ⟨hkeep, hnew⟩ := root_of_step hstep
  rcases List.mem_append.mp hmem with hmem | hmem
  · exact hkeep (hI token hmem)
  · exact hnew token hmem

/-- Once a token is cancelled, whatever comes after: no consumer is given anything more, no action
is sent, and each consumer takes a bounded number of steps, the last of which is its end. -/
theorem shutdown_stops_consumers {collectors : Nat} {config : ReconnectConfig}
    {acts acts' : List (Act E)} {token : Token}
    (hrun : (Engine.start collectors config eventCapacity actionCapacity strategies executors
      observers).run acts = some (h, engine)) (hcancelled : .cancelled token ∈ h)
    (hafter : engine.run acts' = some (h', engine')) :
    (∀ x ∈ h', x.isUpstream = true) ∧
    (acts'.filter Act.isConsumer).length
      ≤ 2 * strategies.length + 2 * executors.length + 4 * observers.length ∧
    ((∀ next, ¬ Consumes next engine') →
      (∀ task ∈ engine'.strategies, task.status = .stopped) ∧
      (∀ task ∈ engine'.executors, task.status = .stopped) ∧
      ∀ task ∈ engine'.observers, task.status = .stopped) := by
  have hroot := root_of_cancelled hrun hcancelled
  have hphase := (Started.of_run hrun).running (Or.inr hroot)
  have hc := Consistent.of_run hrun
  obtain ⟨hup, hphase', hroot', hle⟩ := run_after_root hphase hroot hafter
  have hstrategies : (engine.strategies.map strategySteps).sum ≤ engine.strategies.length * 2 :=
    sum_map_le fun task => by unfold strategySteps; split <;> omega
  have hexecutors : (engine.executors.map executorSteps).sum ≤ engine.executors.length * 2 :=
    sum_map_le fun task => by unfold executorSteps; split <;> omega
  have hobservers : (engine.observers.map observerSteps).sum ≤ engine.observers.length * 4 :=
    sum_map_le fun task => by
      unfold observerSteps
      split
      · rename_i a b _
        cases a <;> cases b <;> decide
      · rename_i a b _
        cases a <;> cases b <;> decide
      · omega
  refine ⟨hup, ?_, fun hstuck => stopped_of_stuck (Orderly.of_run (run_append hrun hafter))
    hphase' hroot' hstuck⟩
  rw [← hc.strategies_length, ← hc.executors_length, ← hc.observers_length]
  unfold stepsLeft at hle
  omega

/-- The caller shuts the engine down while the consumers lag. -/
def shutdownRun :
    List (Happening Nat Nat) × Engine Broadcast.channel Adder Ledger Counter Nat Nat :=
  (smallEngine.run (laggingActs ++ [.shutdown])).get rfl

/-- What the tasks still do. -/
def lastActs : List (Act Nat) :=
  [.driver 0 (.delivered 9), .strategy 0, .executor 0, .observer 0 true, .observer 0 false,
    .observer 0 false, .driver 0 .cancelled]

def stoppedRun : List (Happening Nat Nat) × Engine Broadcast.channel Adder Ledger Counter Nat Nat :=
  (shutdownRun.2.run lastActs).get rfl

theorem shutdown_stops_consumers_lagging :
    stoppedRun.1 = [.event 0 9] ∧ (lastActs.filter Act.isConsumer).length ≤ 2 + 2 + 4 ∧
    ∀ task ∈ stoppedRun.2.executors, task.status = .stopped := by
  have hrun : smallEngine.run (laggingActs ++ [.shutdown])
      = some (shutdownRun.1, shutdownRun.2) := rfl
  have hafter : shutdownRun.2.run lastActs = some (stoppedRun.1, stoppedRun.2) := rfl
  have hcancelled : .cancelled .root ∈ shutdownRun.1 := by decide +kernel
  obtain ⟨-, hsteps, hstopped⟩ := shutdown_stops_consumers hrun hcancelled hafter
  refine ⟨rfl, hsteps, (hstopped ?_).2.1⟩
  rintro next ⟨act, h, hact, hstep⟩
  have hnone : stoppedRun.2.step act = none := by
    cases act with
    | strategy j => cases j <;> rfl
    | executor k => cases k <;> rfl
    | observer m events => cases m <;> cases events <;> rfl
    | _ => exact absurd hact (by simp [Act.isConsumer])
  exact absurd (hnone.symm.trans hstep) (by simp)

end Engine

end ArtemisLight
