import ArtemisLight.Engine.Equiv.Rest
import ArtemisLight.StrategyExt.Adapters

/-!
# Mounted strategies

What an adapter makes of a whole sequence of events is what the strategy inside makes of the events
that reach it, adapted.  In an engine, a mounted strategy therefore sends what the bare one would.
-/

namespace ArtemisLight

variable {S E E2 A A2 : Type} [Strategy S E A]

/-! ### One adapter -/

theorem processEvents_filterMapEvent (filter : FilterMapEvent S E E2) (events : List E2) :
    (processEvents filter events : List A × FilterMapEvent S E E2)
      = ((processEvents filter.strategy (events.filterMap filter.f)).1,
        ⟨(processEvents (A := A) filter.strategy (events.filterMap filter.f)).2, filter.f⟩) := by
  induction events generalizing filter with
  | nil => rfl
  | cons event events ih =>
    rw [processEvents]
    cases hf : filter.f event with
    | none =>
      simp only [Strategy.processEvent, hf, List.filterMap_cons_none hf]
      rw [ih]
      rfl
    | some narrow =>
      simp only [Strategy.processEvent, hf, List.filterMap_cons_some hf]
      rw [ih, processEvents]

theorem processEvents_mapAction (map : MapAction S A A2) (events : List E) :
    (processEvents map events : List A2 × MapAction S A A2)
      = ((processEvents map.strategy events).1.map map.f,
        ⟨(processEvents (A := A) map.strategy events).2, map.f⟩) := by
  induction events generalizing map with
  | nil => rfl
  | cons event events ih =>
    rw [processEvents, processEvents]
    simp only [Strategy.processEvent]
    rw [ih]
    rcases (Strategy.processEvent map.strategy event : Except Error (List A) × S)
      with ⟨e | actions, strategy⟩
    · rfl
    · exact Prod.ext (List.map_append).symm rfl

theorem processEvents_filterActions (filter : FilterActions S A) (events : List E) :
    (processEvents filter events : List A × FilterActions S A)
      = ((processEvents filter.strategy events).1.filter filter.predicate,
        ⟨(processEvents (A := A) filter.strategy events).2, filter.predicate⟩) := by
  induction events generalizing filter with
  | nil => rfl
  | cons event events ih =>
    rw [processEvents, processEvents]
    simp only [Strategy.processEvent]
    rw [ih]
    rcases (Strategy.processEvent filter.strategy event : Except Error (List A) × S)
      with ⟨e | actions, strategy⟩
    · rfl
    · exact Prod.ext (List.filter_append ..).symm rfl

/-! ### In an engine -/

/-- A strategy behind a projection of the events, a gate and a widening of its actions. -/
abbrev Mounted (S E E2 A A2 : Type) := MapAction (FilterActions (FilterMapEvent S E E2) A) A A2

def mount (strategy : S) (project : E2 → Option E) (gate : A → Bool) (widen : A → A2) :
    Mounted S E E2 A A2 := ⟨⟨⟨strategy, project⟩, gate⟩, widen⟩

theorem processEvents_mount (strategy : S) (project : E2 → Option E) (gate : A → Bool)
    (widen : A → A2) (events : List E2) :
    (processEvents (syncedStrategy E2 A2 (mount strategy project gate widen)) events :
        List A2 × Mounted S E E2 A A2)
      = (((processEvents (syncedStrategy E A strategy) (events.filterMap project)).1.filter
          gate).map widen,
        mount (processEvents (A := A) (syncedStrategy E A strategy) (events.filterMap project)).2
          project gate widen) := by
  have hsync : syncedStrategy E2 A2 (mount strategy project gate widen)
      = mount (syncedStrategy E A strategy) project gate widen := rfl
  rw [hsync, processEvents_mapAction]
  simp only [mount]
  rw [processEvents_filterActions]
  simp only
  rw [processEvents_filterMapEvent]

open Engine.Happening (actionOf? toStrategy?)

variable {C : Channel} {τ ω : Type} [Executor τ A2] [Observer ω E2 A2] {collectors : Nat}
  {config : ReconnectConfig} {eventCapacity actionCapacity : Nat} {executors : List τ}
  {observers : List ω} {h : List (Engine.Happening E2 A2)}

/-- Whatever the interleaving, a mounted strategy of an engine sends, in order, what the bare
strategy computes from the events that are projected to it, gated and widened; and it has sent all
of it when the engine is at rest. -/
theorem mounted_strategy_sends {strategies : List (Mounted S E E2 A A2)}
    {acts : List (Engine.Act E2)} {engine : Engine C (Mounted S E E2 A A2) τ ω E2 A2}
    (hrun : (Engine.start collectors config eventCapacity actionCapacity strategies executors
      observers).run acts = some (h, engine)) {j : Nat} {strategy : S} {project : E2 → Option E}
    {gate : A → Bool} {widen : A → A2}
    (hj : strategies[j]? = some (mount strategy project gate widen)) :
    let computed := (processEvents (syncedStrategy E A strategy)
      ((items (h.filterMap (toStrategy? j))).filterMap project)).1
    h.filterMap (actionOf? j) <+: (computed.filter gate).map widen ∧
      (engine.AtRest → h.filterMap (actionOf? j) = (computed.filter gate).map widen) := by
  have hc := Engine.Consistent.of_run hrun
  have ho := Engine.Orderly.of_run hrun
  obtain ⟨task, hget, hok⟩ := hc.exists_strategyTask hj
  have hprocessed := hok.processed
  have hall := processEvents_mount (A := A) strategy project gate widen
    (items (h.filterMap (toStrategy? j)))
  refine ⟨?_, fun hrest => ?_⟩
  · have hprefix := hprocessed.sent_prefix
    rw [hall] at hprefix
    exact hprefix
  · obtain ⟨-, hw⟩ :=
      Engine.recv_of_strategyStep ho hrest.running hrest.root hget (hrest.strategies j)
    exact (Prod.mk.inj (hall.symm.trans (hprocessed.complete hrest.root hw))).1.symm

/-- An adder that sees small events only, and whose small actions only pass. -/
def mountedAdder : Mounted Engine.Adder Nat Nat Nat Nat :=
  mount ⟨0⟩ (fun event => if event < 10 then some event else none) (· ≤ 6) (· + 100)

def mountedActs : List (Engine.Act Nat) :=
  [.sync, .spawnCollectors, .driver 0 .subscribed, .driver 0 (.delivered 5),
    .driver 0 (.delivered 50), .driver 0 (.delivered 3)] ++ List.replicate 12 (.strategy 0)

theorem mounted_strategy_sends_small :
    ∃ h, ∃ engine : Engine Broadcast.channel (Mounted Engine.Adder Nat Nat Nat Nat) Engine.Ledger
        Engine.Counter Nat Nat,
    (Engine.start 1 ⟨2, 100, 1000, Engine.two_le_u32Max, Engine.hundred_le_durationMax⟩ 4 4
      [mountedAdder] [⟨[]⟩] [⟨0, 0⟩]).run mountedActs = some (h, engine) ∧
    h.filterMap (actionOf? 0) <+: [105, 105, 103] := by
  have hsends := mounted_strategy_sends (C := Broadcast.channel) (S := Engine.Adder) (E := Nat)
    (A := Nat) (j := 0) (rfl : (Engine.start 1
      ⟨2, 100, 1000, Engine.two_le_u32Max, Engine.hundred_le_durationMax⟩ 4 4 [mountedAdder]
      [Engine.Ledger.mk []] [Engine.Counter.mk 0 0]).run mountedActs = some (_, _)) rfl
  exact ⟨_, _, rfl, hsends.1⟩

end ArtemisLight
