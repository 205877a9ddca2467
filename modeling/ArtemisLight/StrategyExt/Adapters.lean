import ArtemisLight.Types

/-!
# The adapters of a strategy

Wrappers that mount a strategy into an engine of wider types, and that gate its actions.
-/

namespace ArtemisLight

variable {S E E2 A A2 : Type}

/-- Events mapped to `none` do not reach the strategy. -/
structure FilterMapEvent (S E E2 : Type) where
  strategy : S
  f : E2 → Option E

structure MapAction (S A A2 : Type) where
  strategy : S
  f : A → A2

/-- Actions that fail the predicate are dropped. -/
structure FilterActions (S A : Type) where
  strategy : S
  predicate : A → Bool

instance [Strategy S E A] : Strategy (FilterMapEvent S E E2) E2 A where
  syncState filter :=
    let (synced, strategy) := Strategy.syncState E A filter.strategy
    (synced, { filter with strategy })
  processEvent filter event :=
    match filter.f event with
    | some event =>
      let (actions, strategy) := Strategy.processEvent filter.strategy event
      (actions, { filter with strategy })
    | none => (.ok [], filter)

instance [Strategy S E A] : Strategy (MapAction S A A2) E A2 where
  syncState map :=
    let (synced, strategy) := Strategy.syncState E A map.strategy
    (synced, { map with strategy })
  processEvent map event :=
    let (actions, strategy) :=
      (Strategy.processEvent map.strategy event : Except Error (List A) × S)
    (actions.map fun actions => actions.map map.f, { map with strategy })

instance [Strategy S E A] : Strategy (FilterActions S A) E A where
  syncState filter :=
    let (synced, strategy) := Strategy.syncState E A filter.strategy
    (synced, { filter with strategy })
  processEvent filter event :=
    let (actions, strategy) := Strategy.processEvent filter.strategy event
    (actions.map fun actions => actions.filter filter.predicate, { filter with strategy })

end ArtemisLight
