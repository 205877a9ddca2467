import ArtemisLight.Collectors.EventCollector
import ArtemisLight.Lib.Combinators

/-!
# Composite collectors

Collectors are combined into one: merged, chained, as each other's fallback, or with their events
filtered and mapped.  To the engine the composite is one collector.  The streams are of any kind
that keeps to the laws of `Combinators`.  Log lines are left out.
-/

namespace ArtemisLight

/-- A collector of events `E`.  A stream is what it will give until it ends. -/
class Collector (κ E : Type) where
  subscribe : κ → Except Error (List E) × κ

instance {π F E : Type} [LogProvider π F E] : Collector (EventCollector π F E) E where
  subscribe := EventCollector.subscribe

mutual

inductive Composite : Type → Type 1
  | source {κ E : Type} [Collector κ E] (collector : κ) : Composite E
  | merge {E : Type} (this other : Composite E) : Composite E
  | mergeAll {E : Type} (sources : Sources E) : Composite E
  | chain {E : Type} (first second : Composite E) : Composite E
  | chainAll {E : Type} (sources : Sources E) : Composite E
  | fallback {E : Type} (this other : Composite E) : Composite E
  | fallbackAll {E : Type} (sources : Sources E) : Composite E
  | filterMap {E1 E2 : Type} (collector : Composite E1) (f : E1 → Option E2) : Composite E2

/-- A runtime-sized set of sources. -/
inductive Sources : Type → Type 1
  | nil {E : Type} : Sources E
  | cons {E : Type} (source : Composite E) (sources : Sources E) : Sources E

end

namespace Composite

/-- A filter-map that never discards. -/
def map {E1 E2 : Type} (collector : Composite E1) (f : E1 → E2) : Composite E2 :=
  filterMap collector fun event => some (f event)

end Composite

def Sources.isEmpty {E : Type} : Sources E → Bool
  | .nil => true
  | .cons _ _ => false

mutual

def Composite.subscribe (C : Combinators) :
    {E : Type} → Composite E → Except Error (C.Stream E) × Composite E
  | E, @Composite.source κ _ _ collector =>
    let (items, collector) : Except Error (List E) × κ := Collector.subscribe collector
    (items.map fun items => C.source items true, .source collector)
  | _, .merge this other =>
    match this.subscribe C with
    -- a source that fails is not followed by the other's subscription
    | (.error e, this) => (.error e, .merge this other)
    | (.ok thisStream, this) =>
      let (otherStream, other) := other.subscribe C
      (otherStream.map fun otherStream => C.select thisStream otherStream, .merge this other)
  | _, .mergeAll sources =>
    if sources.isEmpty then
      (.error "merge_all has no sources; nothing to subscribe to", .mergeAll sources)
    else
      let (streams, sources) := sources.subscribeEach C
      (streams.map C.selectAll, .mergeAll sources)
  | _, .chain first second =>
    match first.subscribe C with
    | (.error e, first) => (.error e, .chain first second)
    | (.ok firstStream, first) =>
      let (secondStream, second) := second.subscribe C
      (secondStream.map fun secondStream => C.chain firstStream secondStream, .chain first second)
  | _, .chainAll sources =>
    if sources.isEmpty then
      (.error "chain_all has no sources; nothing to subscribe to", .chainAll sources)
    else
      let (streams, sources) := sources.subscribeEach C
      (streams.map C.flatten, .chainAll sources)
  | _, .fallback this other =>
    match this.subscribe C with
    | (.ok stream, this) => (.ok stream, .fallback this other)
    -- whatever the error is, it is dropped
    | (.error _, this) =>
      let (stream, other) := other.subscribe C
      (stream, .fallback this other)
  | _, .fallbackAll sources =>
    let (stream, sources) :=
      sources.subscribeFirst C "fallback_all has no sources; nothing to subscribe to"
    (stream, .fallbackAll sources)
  | _, .filterMap collector f =>
    let (stream, collector) := collector.subscribe C
    (stream.map fun stream => C.filterMap stream f, .filterMap collector f)

/-- Subscribe every source, in order, until one fails. -/
def Sources.subscribeEach (C : Combinators) :
    {E : Type} → Sources E → Except Error (List (C.Stream E)) × Sources E
  | _, .nil => (.ok [], .nil)
  | _, .cons source sources =>
    match source.subscribe C with
    | (.error e, source) => (.error e, .cons source sources)
    | (.ok stream, source) =>
      let (streams, sources) := sources.subscribeEach C
      (streams.map fun streams => stream :: streams, .cons source sources)

/-- Subscribe the sources, in order, until one succeeds. -/
def Sources.subscribeFirst (C : Combinators) (lastErr : Error) :
    {E : Type} → Sources E → Except Error (C.Stream E) × Sources E
  | _, .nil => (.error lastErr, .nil)
  | _, .cons source sources =>
    match source.subscribe C with
    | (.ok stream, source) => (.ok stream, .cons source sources)
    | (.error e, source) =>
      let (stream, sources) := sources.subscribeFirst C e
      (stream, .cons source sources)

end

end ArtemisLight
