import Mathlib.Logic.Relation
import ArtemisLight.Persistence.Persisted
import ArtemisLight.Persistence.Sql.Equiv.Write
import ArtemisLight.Persistence.Writer.Effects
import ArtemisLight.Serving.Rows

/-!
# Paging under a live writer

`Indexer` is a database with the run of the writer pipeline that fills one of its tables.  Between
two requests the writer may take any number of steps, and a run may be cut off and followed by
another one. `Walk` is a client that pages through the table.
-/

namespace ArtemisLight

/-- The rows of a table, in insertion order. -/
def Database.rowsOf (db : Database) (table : String) : List StoredRow :=
  (db.tables table).elim [] EventTable.rows

/-- A write of another pipeline of the same database: this table and its progress stay as they
are. -/
structure Database.Spares (P : Type) [PositionEncoding P] (d : Dialect) (table : String)
    (db after : Database) : Prop where
  tables : after.tables table = db.tables table
  progress : after.progressRows d table = db.progressRows d table
  position : storedPosition P after table = storedPosition P db table

/-- A database, and the effects that the current run of its writer pipeline has ahead of it. -/
structure Indexer (P E : Type) where
  db : Database
  ahead : List (Effect P E)

section Steps

variable {P E : Type} [Position P] [PositionEncoding P]

/-- What happens between two requests.  A run starts from the stored position and backfills within
the range that its subscribe asks for; where a live stream follows, no backfilled sort key is
`u64::MAX`. -/
inductive Indexer.Step (σ ρ : Type) [Store σ P] [RecordOps ρ E] (d : Dialect) (table : String) :
    Indexer P E → Indexer P E → Prop
  /-- A group is committed.  Row ids are positive and grow with insertion, up to `i64::MAX`. -/
  | wrote {db after : Database} {writer : Writer} {position : P} {rows : List Row}
      {ahead : List (Effect P E)} {schema : TableSchema} (htable : schema.table = table)
      (hwritten : Written d schema position rows db after)
      (hrowids : (after.rowsOf table).length ≤ i64Max) :
      Step σ ρ d table ⟨db, .wrote writer position rows :: ahead⟩ ⟨after, ahead⟩
  /-- Any other effect leaves the database alone. -/
  | passed {db : Database} {x : Effect P E} {ahead : List (Effect P E)} (hx : x.wrote? = none) :
      Step σ ρ d table ⟨db, x :: ahead⟩ ⟨db, ahead⟩
  | elsewhere {db after : Database} {ahead : List (Effect P E)} (h : db.Spares P d table after) :
      Step σ ρ d table ⟨db, ahead⟩ ⟨after, ahead⟩
  /-- The run ends here, wherever it is, and another one starts. -/
  | subscribe {db : Database} {ahead : List (Effect P E)} {seed : Option P}
      (hseed : storedPosition P db table = .ok seed) (p : Persisted ρ) (tip : Nat)
      (backfill : List (P × E)) (live : List (Indexed P E)) (store : σ) (record : ρ)
      (hback : ∀ x ∈ backfill, seed.elim 0 Position.resumeKey ≤ Position.sortKey x.1 ∧
        Position.sortKey x.1 ≤ p.effectiveTip tip)
      (hmax : p.toBlock = none → ∀ x ∈ backfill, Position.sortKey x.1 < u64Max) :
      Step σ ρ d table ⟨db, ahead⟩ ⟨db, (persistAndEmit backfill live store record
        p.confirmationDepth (p.finalCut tip) seed).io.effects⟩

/-- Any number of steps. -/
abbrev Indexer.Steps (σ ρ : Type) [Store σ P] [RecordOps ρ E] (d : Dialect) (table : String) :
    Indexer P E → Indexer P E → Prop :=
  Relation.ReflTransGen (Indexer.Step σ ρ d table)

/-- A table that one writer pipeline has filled from nothing. -/
def Indexer.Filled (σ ρ : Type) [Store σ P] [RecordOps ρ E] (d : Dialect) (table : String)
    (i : Indexer P E) : Prop :=
  ∃ db : Database, db.tables table = none ∧ db.progressRows d table = none ∧
    Indexer.Steps σ ρ d table ⟨db, []⟩ i

/-- A client asks for one page after the other, each time with the offset increased by the limit
that the response echoes, until a page comes back short. -/
inductive Walk (σ ρ : Type) [Store σ P] [RecordOps ρ E] [Cell StoredRow]
    (parse : String → Option Value)
    (d : Dialect) (state : AppState) (table : String) (params : RowsQueryParams) :
    Indexer P E → Nat → List (List (String × Value)) → Indexer P E → Prop
  | short {i : Indexer P E} {offset : Nat} {response : RowsResponse}
      (hok : queryRowsHandler parse state i.db table
        { params with offset := some (toString offset) } = .ok response)
      (hshort : response.rows.length < response.limit) :
      Walk σ ρ parse d state table params i offset response.rows i
  | full {i i' last : Indexer P E} {offset : Nat} {response : RowsResponse}
      {rows : List (List (String × Value))}
      (hok : queryRowsHandler parse state i.db table
        { params with offset := some (toString offset) } = .ok response)
      (hfull : ¬ response.rows.length < response.limit) (hsteps : Indexer.Steps σ ρ d table i i')
      (hwalk : Walk σ ρ parse d state table params i' (offset + response.limit) rows last) :
      Walk σ ρ parse d state table params i offset (response.rows ++ rows) last

end Steps

/-- What a client asks for: the rows of the range, in the order of block and then of insertion. -/
def listing (fromBlock toBlock : Nat) (rows : List StoredRow) : List StoredRow :=
  let inRange := rows.filter fun r =>
    decide ((fromBlock : Int) ≤ r.blockNumber) && decide (r.blockNumber ≤ (toBlock : Int))
  inRange.insertionSort fun r r' => r.blockNumber ≤ r'.blockNumber

end ArtemisLight
