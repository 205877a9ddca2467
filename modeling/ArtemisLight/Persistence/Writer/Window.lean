import ArtemisLight.Lib.Vec
import ArtemisLight.Persistence.Writer.Core

/-!
# The confirmation window

`ConfirmationWindow` persists the live tail, lagging the live edge by a confirmation depth so that a
shallow reorg is corrected before any orphaned row is written.  The pending groups are an ordered
map from sort keys, like the source's `BTreeMap`.
-/

namespace ArtemisLight

open Std (ExtTreeMap)

/-- One buffered position-group. -/
structure Pending (P : Type) where
  position : P
  rows : List Row
  /-- Rows this group held when the live tail first re-emitted its position. -/
  expected : List Row
  /-- Whether the group was buffered from the backfill tail and not yet touched by the live tail. -/
  seeded : Bool

/-- Keep a group's rows only as the downstream-dedupe set, to be rebuilt from the live feed. -/
def Pending.unseed {P : Type} (pending : Pending P) : Pending P :=
  { pending with expected := pending.rows, rows := [], seeded := false }

/-- Buffers the most recent position-groups of a live tail and writes a group only once it is buried
`depth` deep. -/
structure ConfirmationWindow (P : Type) where
  core : GapFreeWriter
  depth : Nat
  pending : ExtTreeMap Nat (Pending P)
  /-- Highest sort key seen so far; maturity is measured against it. -/
  head : Option Nat
  /-- Highest sort key already written. -/
  flushed : Option Nat
  /-- The finalized watermark as a full position. -/
  watermark : Option P

namespace ConfirmationWindow

variable {σ ρ P E : Type} [Position P]

def new (depth : Nat) (seed : Option P) : ConfirmationWindow P :=
  ⟨.new .window, depth, ∅, none, seed.map Position.sortKey, seed⟩

/-- Whether a position is covered by the finalized watermark or by the pending group at its own sort
key. -/
def covered (w : ConfirmationWindow P) (pos : P) : Bool :=
  w.watermark.any (Position.contains · pos) ||
    (w.pending[Position.sortKey pos]?).any (fun p => Position.contains p.position pos)

/-- Drop every live-origin group at or above `key`; a seeded group there keeps its rows as its
dedupe set and stays in place. -/
def rewind (w : ConfirmationWindow P) (key : Nat) : ConfirmationWindow P :=
  { w with
    pending := w.pending.filterMap fun b pending =>
      if key ≤ b then (if pending.seeded then some pending.unseed else none) else some pending }

/-- Mark the window unhealthy and drop the buffer. -/
def failWith (w : ConfirmationWindow P) (io : Io σ ρ P E) (reason : HaltReason P) :
    ConfirmationWindow P × Io σ ρ P E :=
  let (core, io) := w.core.fail io reason
  ({ w with core, pending := ∅ }, io)

/-- Account for a group that has just been written. -/
def finalize (w : ConfirmationWindow P) (b : Nat) (pending : Pending P) : ConfirmationWindow P :=
  { w with
    pending := w.pending.erase b
    flushed := some (w.flushed.elim b (max · b))
    watermark := some (Position.advance w.watermark pending.position) }

/-- The flush loop over the matured sort keys, lowest first; a failed write drops the rest of the
window. -/
def flushLoop [Store σ P] (w : ConfirmationWindow P) (io : Io σ ρ P E) :
    List Nat → ConfirmationWindow P × Io σ ρ P E
  | [] => (w, io)
  | b :: bs =>
    match w.pending[b]? with
    | none => w.flushLoop io bs
    | some pending =>
      match w.core.flush io pending.position pending.rows with
      | (false, core, io) => ({ w with core, pending := ∅ }, io)
      | (true, core, io) => ({ w with core }.finalize b pending).flushLoop io bs

/-- The sort keys buried `depth` deep under `head`, lowest first. -/
def matured (w : ConfirmationWindow P) (head : Nat) : List Nat :=
  w.pending.keys.filter fun b => decide (saturatingAdd u64Max b w.depth ≤ head)

/-- Flush every buffered group now buried `depth` deep. -/
def flushMatured [Store σ P] (w : ConfirmationWindow P) (io : Io σ ρ P E) :
    ConfirmationWindow P × Io σ ρ P E :=
  match w.head with
  | none => (w, io)
  | some head => w.flushLoop io (w.matured head)

/-- Fold one event's row into its sort-key group: `delivered` is `false` when the row is one the
backfill segment already delivered. -/
def fold (w : ConfirmationWindow P) (io : Io σ ρ P E) (position : P) (event : E) (row : Row) :
    ConfirmationWindow P × Io σ ρ P E × Bool :=
  let key := Position.sortKey position
  match w.pending[key]? with
  | none =>
    ({ w with pending := w.pending.insert key ⟨position, [row], [], false⟩ },
      io.emit (.accepted .window position event row), true)
  | some pending =>
    -- first live contact with a backfill-seeded group at its own key: a re-emission
    let rebuild : Bool := Position.reobservation P = .halt ∧ pending.seeded
    let io := if rebuild then io.emit (.rebuilt key) else io
    let pending := if rebuild then pending.unseed else pending
    let position' := Position.advance (some pending.position) position
    let delivered : Bool := row ∉ pending.expected
    ({ w with
       pending := w.pending.insert key
        { pending with
          position := position'
          rows := pending.rows ++ [row]
          expected :=
            if delivered then pending.expected
            else swapRemove pending.expected (pending.expected.idxOf row) } },
      io.emit (.accepted .window position event row), delivered)

/-- Take one encoded live event into the buffer: a backwards position rewinds the old fork's groups
and the head, then the row is folded into its group and the head follows. -/
def accept (w : ConfirmationWindow P) (io : Io σ ρ P E) (position : P) (event : E) (row : Row) :
    ConfirmationWindow P × Io σ ρ P E × Bool :=
  let key := Position.sortKey position
  -- shallow reorg: the chain forked above `key`
  let reorg : Bool := Position.reobservation P = .halt ∧ w.head.any (fun h => decide (key < h))
  let (w, io) :=
    if reorg then ({ w.rewind key with head := some key }, io.emit (.rewound key)) else (w, io)
  let (w, io, delivered) := w.fold io position event row
  ({ w with head := some (w.head.elim key (max · key)) }, io, delivered)

/-- Buffer one live event's row, correcting an in-window reorg, then flush every group that has
matured.  Returns whether the event should be delivered downstream. -/
def record [Store σ P] [RecordOps ρ E] (w : ConfirmationWindow P) (io : Io σ ρ P E) (position : P)
    (event : E) : ConfirmationWindow P × Io σ ρ P E × Bool :=
  let key := Position.sortKey position
  if !w.core.healthy then (w, io, true)
  else if Position.reobservation P = .dedupe ∧ w.covered position then (w, io, false)
  -- a finalized position being rewritten: unfixable without a delete
  else if Position.reobservation P = .halt ∧ w.flushed.any (fun f => decide (key ≤ f)) then
    let (w, io) := w.failWith io (.reobserved position w.depth)
    (w, io, true)
  else
    match w.core.encode io event with
    | (none, core, io) => ({ w with core, pending := ∅ }, io, true)
    | (some row, core, io) =>
      let (w, io, delivered) := { w with core }.accept io position event row
      let (w, io) := w.flushMatured io
      (w, io, delivered)

/-- Take one encoded backfill-tail event into the buffer, in a group marked seeded. -/
def acceptSeeded (w : ConfirmationWindow P) (io : Io σ ρ P E) (position : P) (event : E)
    (row : Row) : ConfirmationWindow P × Io σ ρ P E :=
  let key := Position.sortKey position
  let pending : Pending P := match w.pending[key]? with
    | none => ⟨position, [row], [], true⟩
    | some pending =>
      { pending with
        position := Position.advance (some pending.position) position
        rows := pending.rows ++ [row] }
  ({ w with
     pending := w.pending.insert key pending
     head := some (w.head.elim key (max · key)) },
    io.emit (.accepted .window position event row))

/-- Buffer one backfill-tail event, which must stay pending so the live tail can still correct
it. -/
def recordSeeded [Store σ P] [RecordOps ρ E] (w : ConfirmationWindow P) (io : Io σ ρ P E)
    (position : P) (event : E) : ConfirmationWindow P × Io σ ρ P E × Bool :=
  let key := Position.sortKey position
  if !w.core.healthy then (w, io, true)
  else if Position.reobservation P = .dedupe ∧ w.covered position then (w, io, false)
  else
    match (if Position.reobservation P = .halt then w.head.filter (fun h => decide (key < h))
      else none) with
    | some h =>
      let (w, io) := w.failWith io (.unorderedSeed position h)
      (w, io, true)
    | none =>
      match w.core.encode io event with
      | (none, core, io) => ({ w with core, pending := ∅ }, io, true)
      | (some row, core, io) =>
        let (w, io) := { w with core }.acceptSeeded io position event row
        let (w, io) := w.flushMatured io
        (w, io, true)

/-- Halt this window's persistence and drop the buffer. -/
def halt (w : ConfirmationWindow P) (io : Io σ ρ P E) (reason : HaltReason P) :
    ConfirmationWindow P × Io σ ρ P E :=
  w.failWith io reason

/-- Fold the settled writer's finalized watermark into this window's. -/
def absorb (w : ConfirmationWindow P) : Option P → ConfirmationWindow P
  | none => w
  | some position =>
    { w with
      flushed :=
        some (w.flushed.elim (Position.sortKey position) (max · (Position.sortKey position)))
      watermark := some (Position.advance w.watermark position) }

/-- Apply a reorg retraction at a position. -/
def retract (w : ConfirmationWindow P) (io : Io σ ρ P E) (position : P) :
    ConfirmationWindow P × Io σ ρ P E :=
  let key := Position.sortKey position
  if !w.core.healthy then (w, io)
  else if Position.reobservation P = .dedupe then (w, io)
  else if w.flushed.any (fun f => decide (key ≤ f)) then w.failWith io (.retracted position w.depth)
  else
    ({ w.rewind key with head := w.head.map (min · (key - 1)) }, io.emit (.rewound key))

end ConfirmationWindow

end ArtemisLight
