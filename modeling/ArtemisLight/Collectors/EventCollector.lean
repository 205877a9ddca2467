import ArtemisLight.Persistence.Persisted

/-!
# The event collector

A contract's logs become positioned events, and the logs that a reorg has removed become
retractions.  The event, its filter and the provider are a parameter: `LogProvider` is what the
collector asks of them.  Log lines are left out.
-/

namespace ArtemisLight

/-- The fields of a log that the collector reads. -/
structure Log where
  blockNumber : Option Nat
  removed : Bool
  deriving DecidableEq, Repr

section Items

variable {E : Type}

/-- The live-stream item for one decoded log, or `none` to skip it.  A log without a block number
cannot be indexed. -/
def liveItem (event : E) (log : Log) : Option (Indexed BlockPosition E) :=
  match log.blockNumber with
  | none => none
  | some block => if log.removed then some (.retract ⟨block⟩) else some (.event ⟨block⟩ event)

/-- The block and the event of one decoded historical log, or `none` to skip it. -/
def indexedEvent (event : E) (log : Log) : Option (Nat × E) :=
  match liveItem event log with
  | none => none
  | some (.event position event) => some (position.block, event)
  | some (.retract _) => none

end Items

/-- What a provider is asked for one event's logs.  A log of a stream may fail to decode. -/
class LogProvider (π F E : Type) where
  /-- Over pubsub. -/
  subscribe : π → F → Except Error (List (Except Error (E × Log))) × π
  /-- Over a polled log filter. -/
  watch : π → F → Except Error (List (Except Error (E × Log))) × π
  /-- The decoded logs of an inclusive range of blocks. -/
  query : π → F → Nat → Nat → Except Error (List (E × Log)) × π
  getBlockNumber : π → Except Error Nat × π

/-- Subscribe, or poll if that fails. -/
def subscribeOrPoll {π α : Type} (subscribe poll : π → Except Error α × π) (provider : π) :
    Except Error α × π :=
  match subscribe provider with
  | (.ok stream, provider) => (.ok stream, provider)
  | (.error _, provider) => poll provider

structure EventCollector (π F E : Type) where
  provider : π
  filter : F

namespace EventCollector

variable {π F E : Type} [LogProvider π F E]

/-- The decoded logs, before reorg and index filtering. -/
def rawStream (c : EventCollector π F E) :
    Except Error (List (Except Error (E × Log))) × EventCollector π F E :=
  let r := subscribeOrPoll (fun n => LogProvider.subscribe n c.filter)
    (fun n => LogProvider.watch n c.filter) c.provider
  (r.1, { c with provider := r.2 })

/-- The item of one element of the raw stream; decode failures are dropped. -/
def rawItem : Except Error (E × Log) → Option (Indexed BlockPosition E)
  | .ok (event, log) => liveItem event log
  | .error _ => none

def indexedStream (c : EventCollector π F E) :
    Except Error (List (Indexed BlockPosition E)) × EventCollector π F E :=
  match c.rawStream with
  | (.ok raw, c) => (.ok (raw.filterMap rawItem), c)
  | (.error e, c) => (.error e, c)

/-- The event of an item: strategies are not told of retractions. -/
def freshEvent : Indexed BlockPosition E → Option E
  | .event _ event => some event
  | .retract _ => none

def subscribe (c : EventCollector π F E) : Except Error (List E) × EventCollector π F E :=
  match c.indexedStream with
  | (.ok items, c) => (.ok (items.filterMap freshEvent), c)
  | (.error e, c) => (.error e, c)

instance : PersistableCollector (EventCollector π F E) BlockPosition E where
  subscribeIndexed := indexedStream
  queryRange c a b :=
    let (logs, provider) := LogProvider.query c.provider c.filter a.block b.block
    (logs.map fun logs => (logs.filterMap fun x => indexedEvent x.1 x.2).map fun x => (⟨x.1⟩, x.2),
      { c with provider })
  tip c :=
    let (number, provider) := LogProvider.getBlockNumber F E c.provider
    (number.map BlockPosition.mk, { c with provider })

end EventCollector

end ArtemisLight
