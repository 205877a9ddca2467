import ArtemisLight.Persistence.Position
import ArtemisLight.Persistence.Schema

/-!
# Stores

`Store` is the trait every backend implements.  `Archive` is what a store keeps for one table, seen
from outside: the stored rows in insertion order, each under its sort key, and the stored position.
`Archival` says that a store behaves as an archive: a write that succeeds appends its rows and
advances the position in one step, a write that fails changes nothing.  A SQL store of
block positions does (`SqlArchive`).
-/

namespace ArtemisLight

/-- A storage backend that records indexed events, one table per event type. -/
class Store (σ P : Type) where
  /-- Persist every row emitted at a position and advance the stored position. -/
  write : σ → TableSchema → P → List Row → Except Error Unit × σ
  /-- The last processed position of a table. -/
  storedPosition : σ → String → Except Error (Option P)
  /-- The stored rows at or below a position, in ascending sort-key order. -/
  replay : σ → TableSchema → P → Except Error (List Row)

/-- Writes to the stores in `W` succeed. -/
def Reliable (P : Type) {σ : Type} [Store σ P] (W : σ → Prop) : Prop :=
  ∀ s, W s → ∀ (schema : TableSchema) (p : P) rows,
    ∃ s', Store.write s schema p rows = (.ok (), s') ∧ W s'

/-- The rows stored for one table, each under its sort key, and the stored position. -/
structure Archive (P : Type) where
  rows : List (Nat × Row)
  position : Option P

namespace Archive

variable {P : Type} [Position P]

/-- Nothing stored. -/
def empty : Archive P := ⟨[], none⟩

/-- One atomic write: the rows under the position's sort key, the position folded in. -/
def commit (a : Archive P) (position : P) (rows : List Row) : Archive P :=
  ⟨a.rows ++ rows.map (Position.sortKey position, ·), some (Position.advance a.position position)⟩

/-- The stored rows with a sort key up to and including `key`. -/
def upTo (a : Archive P) (key : Nat) : List Row :=
  (a.rows.filter (fun r => decide (r.1 ≤ key))).map Prod.snd

end Archive

/-- A store that behaves, for the table `table`, as an archive: a successful write is one
`Archive.commit`, a failed one leaves the archive as it was, and the reads that answer answer from
the archive. -/
class Archival (σ P : Type) [Position P] extends Store σ P where
  archive : σ → String → Archive P
  archive_write_ok : ∀ {s s' : σ} {schema : TableSchema} {p : P} {rows : List Row},
    write s schema p rows = (.ok (), s') →
      archive s' schema.table = (archive s schema.table).commit p rows
  archive_write_error : ∀ {s s' : σ} {schema : TableSchema} {p : P} {rows : List Row} {e : Error},
    write s schema p rows = (.error e, s') → archive s' schema.table = archive s schema.table
  storedPosition_ok : ∀ {s : σ} {table : String} {p : Option P},
    storedPosition s table = .ok p → (archive s table).position = p
  replay_ok : ∀ {s : σ} {table : String} {p : P} {rows : List Row},
    (archive s table).rows.Pairwise (fun r r' => r.1 ≤ r'.1) →
      replay s ⟨table, [⟨payloadColumn, .text⟩]⟩ p = .ok rows →
      rows.map Row.cells
        = ((archive s table).upTo (Position.sortKey p)).map (fun r => r.payload?.toList)

end ArtemisLight
