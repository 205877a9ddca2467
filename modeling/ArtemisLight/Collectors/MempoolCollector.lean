import ArtemisLight.Collectors.EventCollector
import ArtemisLight.Lib.Machine
import ArtemisLight.Lib.Unordered

/-!
# The mempool collector

The hashes of pending transactions come from a subscription or, in batches, from a polled filter;
each is looked up, a bounded number at once, and the transactions that are found are given in the
order in which the lookups finish.  The stream of lookups is of any kind that keeps to the laws of
`BufferUnordered`.  Log lines are left out.
-/

namespace ArtemisLight

/-- What a provider is asked for pending transactions. -/
class PendingProvider (π : Type) where
  /-- Over pubsub. -/
  subscribePendingTransactions : π → Except Error Unit × π
  /-- Over a polled filter. -/
  watchPendingTransactions : π → Except Error Unit × π

/-- What comes of a lookup: the provider's answer, or the end of the timeout. -/
inductive Lookup (T : Type) where
  | replied (reply : Except Error (Option T))
  | elapsed
  deriving DecidableEq

/-- The transaction that a lookup has found.  One that fails or takes too long finds none. -/
def Lookup.transaction {T : Type} : Lookup T → Option T
  | .replied (.ok tx) => tx
  | .replied (.error _) => none
  | .elapsed => none

/-- A `NonZeroUsize`. -/
structure NonZeroUsize where
  get : Nat
  pos : 0 < get
  fits : get ≤ u64Max

structure MempoolCollector (π : Type) where
  provider : π
  maxConcurrentLookups : NonZeroUsize

/-- A kind of stream of lookups of hashes `H`, of which the transactions found are kept. -/
abbrev LookupStream (H T : Type) := BufferUnordered H (Lookup T) T

namespace MempoolCollector

variable {π H T : Type}

theorem default_fits : 16 ≤ u64Max := by decide

def defaultMaxConcurrentLookups : NonZeroUsize := ⟨16, Nat.succ_pos _, default_fits⟩

def new (provider : π) : MempoolCollector π := ⟨provider, defaultMaxConcurrentLookups⟩

def withMaxConcurrentLookups (c : MempoolCollector π) (max : NonZeroUsize) :
    MempoolCollector π :=
  { c with maxConcurrentLookups := max }

def subscribe [PendingProvider π] (B : LookupStream H T) (c : MempoolCollector π) :
    Except Error B.Stream × MempoolCollector π :=
  let (source, provider) := subscribeOrPoll PendingProvider.subscribePendingTransactions
    PendingProvider.watchPendingTransactions c.provider
  (source.map fun () => B.new c.maxConcurrentLookups.get, { c with provider })

end MempoolCollector

namespace LookupStream

variable {H T : Type} {B : LookupStream H T}

/-- What the collector gives for a finished lookup. -/
def found (lookup : H × Lookup T) : Option T := lookup.2.transaction

def poll (stream : B.Stream) : Yield T × List (Unordered.Event H (Lookup T)) × B.Stream :=
  BufferUnordered.poll B found stream

def run (stream : B.Stream) (acts : List (Unordered.Act H (Lookup T))) :
    Option (List (Yield T) × List (Unordered.Event H (Lookup T)) × B.Stream) :=
  BufferUnordered.run found stream acts

end LookupStream

end ArtemisLight
