import ArtemisLight.Persistence.Writer.Pipeline

/-!
# Persisted collectors

`Persisted.subscribe` replays stored history, then backfills the gap up to the tip in bounded
chunks, then follows the live tail; the last two go through `persistAndEmit`.  The collector is a
state of its own: each call may fail and may change what later calls answer.
-/

namespace ArtemisLight

/-- A collector that is aware of its ordering position and can replay historical ranges.  A stream
is the list of the items it yields. -/
class PersistableCollector (τ P E : Type) where
  /-- Live, position-indexed events from the source's tip onward, plus reorg retractions. -/
  subscribeIndexed : τ → Except Error (List (Indexed P E)) × τ
  /-- Historical events for an inclusive range. -/
  queryRange : τ → P → P → Except Error (List (P × E)) × τ
  /-- The current tip position. -/
  tip : τ → Except Error P × τ

/-- A persisted collector: `record` is what `resolve_record` makes of its schema and table, and
`replayed` the replay-once flag. -/
structure Persisted (ρ : Type) where
  record : Except Error ρ
  startBlock : Nat
  backfillChunkSize : Nat
  chunk_pos : 0 < backfillChunkSize
  confirmationDepth : Nat
  depth_pos : 0 < confirmationDepth
  toBlock : Option Nat
  replayed : Bool

/-- What a subscriber receives: the replay segment, and the effects of the backfill and live
segments in delivery order. -/
structure Subscription (P E : Type) where
  replay : List E
  synced : List (Effect P E)

/-- The whole stream in delivery order: replay first. -/
def Subscription.effects {P E : Type} (sub : Subscription P E) : List (Effect P E) :=
  sub.replay.map .yielded ++ sub.synced

/-! ### The backfill query -/

/-- A character in lower case, as far as an ASCII needle can tell: of all the others only the Kelvin
sign has an ASCII letter for its lower case, and a dotted capital `I` has one with an accent. -/
def toLowercase (c : Char) : Char := if c = '\u212a' then 'k' else c.toLower

/-- Whether an error is the provider signalling that the window was too large. -/
def isResponseSizeError (e : Error) : Bool :=
  let s := e.toList.map toLowercase
  ["block range", "response size", "max results", "too many results", "query returned more than",
    "-32602", "too big"].any fun needle => s.tails.any fun t => needle.toList.isPrefixOf t

section Query

variable {τ P E : Type} [Position P] [PersistableCollector τ P E]

/-- Query an inclusive range of sort keys, bisecting while the provider rejects the window for its
size.  Each bisection lowers the width, so `to - from` bounds the depth of the recursion. -/
def queryRangeSplitAux : Nat → τ → Nat → Nat → Except Error (List (P × E)) × τ
  | fuel, c, lo, hi =>
    match PersistableCollector.queryRange c (Position.fromSortKey lo : P)
        (Position.fromSortKey hi : P) with
    | (.ok stream, c) => (.ok stream, c)
    | (.error e, c) =>
      if lo < hi ∧ isResponseSizeError e then
        match fuel with
        | 0 => (.error e, c)
        | fuel + 1 =>
          let mid := lo + (hi - lo) / 2
          match queryRangeSplitAux fuel c lo mid with
          | (.error e, c) => (.error e, c)
          | (.ok left, c) =>
            match queryRangeSplitAux fuel c (mid + 1) hi with
            | (.error e, c) => (.error e, c)
            | (.ok right, c) => (.ok (left ++ right), c)
      else (.error e, c)

def queryRangeSplit (c : τ) (lo hi : Nat) : Except Error (List (P × E)) × τ :=
  queryRangeSplitAux (hi - lo) c lo hi

/-- Last sort key of the window starting at `lo`. -/
def windowEnd (lo hi chunk : Nat) : Nat := min (saturatingAdd u64Max lo (chunk - 1)) hi

/-- How the lazily queried windows end. -/
inductive ChunkEnd where
  /-- Every window up to the tip has been queried. -/
  | exhausted
  /-- A window failed: `poison` is cancelled, which ends the live tail too. -/
  | poisoned
  /-- The loop is still running when the fuel is spent. -/
  | unfinished
  deriving DecidableEq, Repr

/-- The lazily queried windows after the first one. -/
def chunkLoop : Nat → τ → Nat → Nat → Nat → (List (P × E) × ChunkEnd) × τ
  | 0, c, nextFrom, hi, _ => (([], if nextFrom ≤ hi then .unfinished else .exhausted), c)
  | fuel + 1, c, nextFrom, hi, chunk =>
    if nextFrom ≤ hi then
      let nextTo := windowEnd nextFrom hi chunk
      match queryRangeSplit c nextFrom nextTo with
      | (.error _, c) => (([], .poisoned), c)
      | (.ok window, c) =>
        let r := chunkLoop fuel c (saturatingAdd u64Max nextTo 1) hi chunk
        ((window ++ r.1.1, r.1.2), r.2)
    else (([], .exhausted), c)

/-- Query an inclusive range in windows of at most `chunk` positions; the first one is queried
eagerly and fails the whole query.  Every turn of the loop raises `nextFrom`, except at `u64::MAX`,
so the width of the gap is enough fuel below that. -/
def chunkedQuery (c : τ) (lo hi chunk : Nat) : Except Error (List (P × E) × ChunkEnd) × τ :=
  let firstTo := windowEnd lo hi chunk
  match queryRangeSplit c lo firstTo with
  | (.error e, c) => (.error e, c)
  | (.ok first, c) =>
    let r := chunkLoop (hi - firstTo) c (saturatingAdd u64Max firstTo 1) hi chunk
    (.ok (first ++ r.1.1, r.1.2), r.2)

/-- The backfill segment; an inverted range is not queried. -/
def backfillSegment (c : τ) (lo hi chunk : Nat) : Except Error (List (P × E) × ChunkEnd) × τ :=
  if hi < lo then (.ok ([], .exhausted), c) else chunkedQuery c lo hi chunk

end Query

/-! ### Replay -/

section Replay

variable {σ ρ P E : Type} [Position P] [Store σ P] [RecordOps ρ E]

/-- Reconstruct one stored event from its replayed payload column. -/
def decodeRow (record : ρ) (row : Row) : Except Error E :=
  match row.cells.head? with
  | some (.text payload) => RecordOps.decode record payload
  | other => .error s!"unexpected payload column on replay: {repr other}"

/-- Replay stored events up to and including `last`. -/
def replayStored (store : σ) (record : ρ) : Option P → Except Error (List E)
  | none => .ok []
  | some upTo =>
    match Store.replay store ⟨RecordOps.table E record, [⟨payloadColumn, .text⟩]⟩ upTo with
    | .error e => .error e
    | .ok rows => rows.mapM (decodeRow record)

/-- The replay segment: stored history, on the first subscribe only. -/
def replaySegment (store : σ) (replayed : Bool) (record : ρ) (upTo : Option P) :
    Except Error (List E) :=
  if replayed then .ok [] else replayStored store record upTo

end Replay

/-! ### Subscribe -/

variable {τ σ ρ P E : Type} [Position P] [PersistableCollector τ P E] [Store σ P] [RecordOps ρ E]

/-- Subscribe to the live tip, unless bounded. -/
def Persisted.liveSource (p : Persisted ρ) (c : τ) : Except Error (List (Indexed P E)) × τ :=
  match p.toBlock with
  | none => PersistableCollector.subscribeIndexed c
  | some _ => (.ok [], c)

/-- The highest sort key the backfill covers. -/
def Persisted.effectiveTip (p : Persisted ρ) (tipKey : Nat) : Nat :=
  p.toBlock.elim tipKey (min · tipKey)

/-- The sort key up to which the backfill settles final. -/
def Persisted.finalCut (p : Persisted ρ) (tipKey : Nat) : Option Nat :=
  if p.toBlock.isSome then some (p.effectiveTip tipKey)
  else checkedSub (p.effectiveTip tipKey) p.confirmationDepth

/-- The sort key the backfill starts from. -/
def Persisted.backfillFrom (p : Persisted ρ) (last : Option P) : Nat :=
  max (last.elim 0 Position.resumeKey) p.startBlock

/-- The position up to which stored history is replayed. -/
def Persisted.replayUpTo (p : Persisted ρ) (last : Option P) : Option P :=
  match p.toBlock, last with
  | some cap, some l => if cap < Position.sortKey l then some (Position.fromSortKey cap) else last
  | _, _ => last

/-- The effects of the backfill and live segments.  A failed window ends the live tail before its
first item, and a backfill that does not end never reaches it. -/
def Persisted.synced (p : Persisted ρ) (store : σ) (record : ρ) (finalCut : Option Nat)
    (last : Option P) (backfill : List (P × E)) (outcome : ChunkEnd) (live : List (Indexed P E)) :
    List (Effect P E) :=
  match outcome with
  | .exhausted =>
    (persistAndEmit backfill live store record p.confirmationDepth finalCut last).io.effects
  | .poisoned =>
    (persistAndEmit backfill [] store record p.confirmationDepth finalCut last).io.effects
  | .unfinished =>
    (backfill.foldl (Pipeline.backfillStep finalCut)
      (Pipeline.start store record p.confirmationDepth finalCut last)).io.effects

/-- Subscribe: replay, then the backfill and live segments through one writer pipeline. -/
def Persisted.subscribe (p : Persisted ρ) (c : τ) (store : σ) :
    Except Error (Subscription P E) × τ :=
  match p.record with
  | .error e => (.error e, c)
  | .ok record =>
    match (p.liveSource c : Except Error (List (Indexed P E)) × τ) with
    | (.error e, c) => (.error e, c)
    | (.ok live, c) =>
      match (PersistableCollector.tip E c : Except Error P × τ) with
      | (.error e, c) => (.error e, c)
      | (.ok tip, c) =>
        let tipKey := Position.sortKey tip
        match (Store.storedPosition store (RecordOps.table E record) : Except Error (Option P)) with
        | .error e => (.error e, c)
        | .ok last =>
          match replaySegment store p.replayed record (p.replayUpTo last) with
          | .error e => (.error e, c)
          | .ok replay =>
            match backfillSegment c (p.backfillFrom last) (p.effectiveTip tipKey)
                p.backfillChunkSize with
            | (.error e, c) => (.error e, c)
            | (.ok (backfill, outcome), c) =>
              (.ok ⟨replay, p.synced store record (p.finalCut tipKey) last backfill outcome live⟩,
                c)

/-- What the stream of one subscribe does, in order; a failed subscribe does nothing. -/
def Persisted.stream (p : Persisted ρ) (c : τ) (store : σ) : List (Effect P E) :=
  match (p.subscribe c store : Except Error (Subscription P E) × τ).1 with
  | .ok sub => sub.effects
  | .error _ => []

end ArtemisLight
