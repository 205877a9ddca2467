import ArtemisLight.Types

/-!
# The block collector's polling loop

The node is polled for the hashes of new blocks, and each header is fetched on demand.  A hash whose
fetch failed is retried on later poll ticks, up to a number of attempts.  The fetches of one tick
run concurrently, but their results come in order; log lines are left out.
-/

namespace ArtemisLight

abbrev BlockHash := BitVec 256

/-- The fields of a block's header that the collector reads. -/
structure Header where
  hash : BlockHash
  number : Nat
  deriving DecidableEq

/-- The event of a new block. -/
structure NewBlock where
  hash : BlockHash
  number : Nat
  deriving DecidableEq

/-- What `get_block_by_hash` returns. -/
abbrev Fetched := Except Error (Option Header)

/-- Header fetches per hash before it is dropped. -/
def maxFetchAttempts : Nat := 3

/-- Hashes whose fetch failed, with their number of failures, in first-failed order. -/
structure FetchRetryQueue where
  maxAttempts : Nat
  pending : List (BlockHash × Nat)
  deriving DecidableEq

namespace FetchRetryQueue

def new (maxAttempts : Nat) : FetchRetryQueue := ⟨maxAttempts, []⟩

/-- The hashes to attempt again on this tick. -/
def due (queue : FetchRetryQueue) : List BlockHash := queue.pending.map Prod.fst

/-- Count one more failure of the first entry of a hash. -/
def bump (hash : BlockHash) : List (BlockHash × Nat) → List (BlockHash × Nat)
  | [] => []
  | (h, failures) :: pending =>
    if h = hash then (h, failures + 1) :: pending else (h, failures) :: bump hash pending

/-- Note a failed fetch.  The result is `false` if that was the last attempt. -/
def recordFailure (queue : FetchRetryQueue) (hash : BlockHash) : Bool × FetchRetryQueue :=
  let (failures, pending) :=
    match queue.pending.find? fun entry => entry.1 = hash with
    | some (_, failures) => (failures + 1, bump hash queue.pending)
    | none => (1, queue.pending ++ [(hash, 1)])
  if queue.maxAttempts ≤ failures then
    (false, { queue with pending := pending.filter fun entry => entry.1 ≠ hash })
  else (true, { queue with pending := pending })

/-- A fetch succeeded. -/
def resolve (queue : FetchRetryQueue) (hash : BlockHash) : FetchRetryQueue :=
  { queue with pending := queue.pending.filter fun entry => entry.1 ≠ hash }

/-- One result of a tick, and the block it yields. -/
def process (queue : FetchRetryQueue) (hash : BlockHash) (fetched : Fetched) :
    Option NewBlock × FetchRetryQueue :=
  match fetched with
  | .ok (some header) => (some ⟨header.hash, header.number⟩, queue.resolve hash)
  | .ok none => (none, (queue.recordFailure hash).2)
  | .error _ => (none, (queue.recordFailure hash).2)

end FetchRetryQueue

/-- The results of one tick, in order. -/
def processAll (fetch : BlockHash → Fetched) : FetchRetryQueue → List BlockHash →
    List NewBlock × FetchRetryQueue
  | queue, [] => ([], queue)
  | queue, hash :: hashes =>
    let (block, queue) := queue.process hash (fetch hash)
    let (blocks, queue) := processAll fetch queue hashes
    (block.toList ++ blocks, queue)

/-- The loop over the polled batches, from a tick on.  `fetch tick hash` is what the attempt to
fetch a hash on a tick returns. -/
def pollTicks (fetch : Nat → BlockHash → Fetched) : Nat → FetchRetryQueue → List (List BlockHash) →
    List NewBlock × FetchRetryQueue
  | _, queue, [] => ([], queue)
  | tick, queue, batch :: batches =>
    let toFetch := queue.due ++ batch
    let (blocks, queue) := processAll (fetch tick) queue toFetch
    let (later, queue) := pollTicks fetch (tick + 1) queue batches
    (blocks ++ later, queue)

/-- The blocks that the polling stream yields. -/
def pollingStream (fetch : Nat → BlockHash → Fetched) (batches : List (List BlockHash)) :
    List NewBlock :=
  (pollTicks fetch 0 (FetchRetryQueue.new maxFetchAttempts) batches).1

end ArtemisLight
