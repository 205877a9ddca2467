import ArtemisLight.Persistence.Writer.Core

/-!
# The block writer

`BlockWriter` persists the finite backfill range, one transaction per complete position-group: a
group is complete once a higher sort key is observed, and the trailing group is written by `finish`.
-/

namespace ArtemisLight

/-- Buffers one position-group's rows at a time. -/
structure BlockWriter (P : Type) where
  core : GapFreeWriter
  buffer : List Row
  /-- The open group's position, folded over its events. -/
  current : Option P
  /-- The finalized watermark: the seed, advanced as groups flush. -/
  watermark : Option P

namespace BlockWriter

variable {σ ρ P E : Type} [Position P]

def new (seed : Option P) : BlockWriter P := ⟨.new .settled, [], none, seed⟩

/-- Whether a position is covered by the finalized watermark or by the open group at its own sort
key. -/
def covered (w : BlockWriter P) (pos : P) : Bool :=
  w.watermark.any (Position.contains · pos) ||
    w.current.any fun c =>
      decide (Position.sortKey c = Position.sortKey pos) && Position.contains c pos

/-- Fold an event's position into the open group and buffer its row. -/
def push (w : BlockWriter P) (io : Io σ ρ P E) (position : P) (event : E) (row : Row) :
    BlockWriter P × Io σ ρ P E :=
  ({ w with current := some (Position.advance w.current position), buffer := w.buffer ++ [row] },
    io.emit (.accepted .settled position event row))

/-- Buffer one event's row, first flushing the previous group if the position has advanced past it.
Returns whether the event should be delivered downstream. -/
def record [Store σ P] [RecordOps ρ E] (w : BlockWriter P) (io : Io σ ρ P E) (position : P)
    (event : E) : BlockWriter P × Io σ ρ P E × Bool :=
  if !w.core.healthy then (w, io, true)
  else if Position.reobservation P = .dedupe ∧ w.covered position then (w, io, false)
  else
    match w.core.encode io event with
    | (none, core, io) => ({ w with core, buffer := [] }, io, true)
    | (some row, core, io) =>
      match w.current with
      | none =>
        let (w, io) := { w with core }.push io position event row
        (w, io, true)
      | some cur =>
        -- a backwards position: the open group's completeness can no longer be trusted
        if Position.sortKey position < Position.sortKey cur then
          let (core, io) := core.fail io (.unordered position cur)
          ({ w with core, buffer := [] }, io, true)
        -- the position advanced: the previous group is complete
        else if Position.sortKey cur < Position.sortKey position then
          match core.flush io cur w.buffer with
          | (false, core, io) => ({ w with core, buffer := [], current := none }, io, true)
          | (true, core, io) =>
            let watermark := some (Position.advance w.watermark cur)
            let (w, io) :=
              { core, buffer := [], current := none, watermark : BlockWriter P }.push io position
                event row
            (w, io, true)
        else
          let (w, io) := { w with core }.push io position event row
          (w, io, true)

/-- Flush the trailing group of a finite range. -/
def finish [Store σ P] (w : BlockWriter P) (io : Io σ ρ P E) : BlockWriter P × Io σ ρ P E :=
  if w.core.healthy then
    match w.current with
    | none => (w, io)
    | some cur =>
      match w.core.flush io cur w.buffer with
      | (false, core, io) => ({ w with core, buffer := [], current := none }, io)
      | (true, core, io) =>
        ({ core, buffer := [], current := none,
           watermark := some (Position.advance w.watermark cur) }, io)
  else (w, io)

end BlockWriter

end ArtemisLight
