import Mathlib.Logic.Function.Basic
import ArtemisLight.Persistence.Sql.Identifiers
import ArtemisLight.Types

/-!
# The database behind a SQL store

The progress table, the event tables, and what each statement of the query layer does to them.  A
progress table is in one of two shapes: an archive of before the position encoding has no `position`
column.  Cells are dynamically typed, as a foreign writer may leave them.
-/

namespace ArtemisLight

/-- A backend error, as far as a dialect tells them apart. -/
inductive SqlError where
  | undefinedTable
  | undefinedColumn
  | duplicateObject
  | other (message : Error)
  deriving DecidableEq, Repr

/-- One row of the progress table. -/
structure ProgressRow where
  lastBlock : SqlValue
  position : SqlValue
  deriving DecidableEq, Repr

/-- The progress table, by `table_name`. -/
inductive ProgressTable where
  /-- Without the `position` column: the `last_block` cells. -/
  | unmigrated (lastBlocks : String → Option SqlValue)
  | migrated (rows : String → Option ProgressRow)

/-- One stored row: the implicit block column, and the other cells by column name. -/
structure StoredRow where
  blockNumber : Int
  cells : List (String × SqlValue)
  deriving DecidableEq, Repr

/-- An event table: its columns, and its rows in insertion order. -/
structure EventTable where
  columns : List Column
  rows : List StoredRow
  deriving DecidableEq, Repr

structure Database where
  /-- `none` until the progress table is created. -/
  progress : Option ProgressTable
  /-- The event tables, by name. -/
  tables : String → Option EventTable

/-- What differs between the backends: how an integer is cast to text, which names are one, and
whether a failed statement aborts its transaction. -/
structure Dialect where
  /-- `CAST(… AS TEXT)` of a cell. -/
  castText : SqlValue → SqlValue
  castText_integer : ∀ n : Nat, castText (.integer n) = .text (toString n)
  identifiers : Identifiers
  /-- How a column that is there already is reported: the code of PostgreSQL for it is also the one
  of a lost race. -/
  duplicateColumn : SqlError
  abortsOnError : Bool

/-- A dialect that casts nothing but integers, and compares names as they are. -/
def Dialect.integersOnly : Dialect where
  castText
    | .integer i => .text (toString i)
    | cell => cell
  castText_integer _ := rfl
  identifiers := .exact
  duplicateColumn := .other "duplicate column name"
  abortsOnError := false

/-- The row that an insert stores for a row of a schema. -/
def TableSchema.stored (schema : TableSchema) (sortKey : Int) (row : Row) : StoredRow :=
  ⟨sortKey, (schema.columns.map Column.name).zip row.cells⟩

/-- The encoded position that the migration gives a row without one. -/
def ProgressRow.backfilled (d : Dialect) (row : ProgressRow) : ProgressRow :=
  if row.position = .null then { row with position := d.castText row.lastBlock } else row

namespace Database

variable (db : Database)

def setTable (name : String) (table : EventTable) : Database :=
  { db with tables := Function.update db.tables name (some table) }

def setProgress (progress : ProgressTable) : Database := { db with progress := some progress }

/-! ### Tables and columns -/

/-- `CREATE TABLE IF NOT EXISTS` for the progress table. -/
def createProgressTable : Except SqlError (Unit × Database) :=
  .ok ((), match db.progress with
    | none => db.setProgress (.migrated fun _ => none)
    | some _ => db)

/-- The event table of a schema exists, or the backend can tell its columns apart. -/
def Creates (d : Dialect) (schema : TableSchema) : Prop :=
  (db.tables schema.table).isSome ∨ d.identifiers.Distinct (schema.tableColumns.map Column.name)

/-- `CREATE TABLE IF NOT EXISTS` for an event table, which is refused if the backend has one of the
columns already. -/
def createEventTable (d : Dialect) (schema : TableSchema) : Except SqlError (Unit × Database) :=
  match db.tables schema.table with
  | some _ => .ok ((), db)
  | none =>
    if d.identifiers.Distinct (schema.tableColumns.map Column.name) then
      .ok ((), db.setTable schema.table ⟨schema.columns, []⟩)
    else .error d.duplicateColumn

/-- `SELECT position FROM _artemis_progress LIMIT 1`: does the column exist? -/
def probePositionColumn : Except SqlError (Unit × Database) :=
  match db.progress with
  | none => .error .undefinedTable
  | some (.unmigrated _) => .error .undefinedColumn
  | some (.migrated _) => .ok ((), db)

/-- `ALTER TABLE _artemis_progress ADD COLUMN position TEXT` -/
def addPositionColumn : Except SqlError (Unit × Database) :=
  match db.progress with
  | none => .error .undefinedTable
  | some (.migrated _) => .error .duplicateObject
  | some (.unmigrated lastBlocks) =>
    .ok ((), db.setProgress (.migrated fun t => (lastBlocks t).map (⟨·, .null⟩)))

/-- `UPDATE _artemis_progress SET position = CAST(last_block AS TEXT) WHERE position IS NULL` -/
def backfillPositionFromLastBlock (d : Dialect) : Except SqlError (Unit × Database) :=
  match db.progress with
  | none => .error .undefinedTable
  | some (.unmigrated _) => .error .undefinedColumn
  | some (.migrated rows) =>
    .ok ((), db.setProgress (.migrated fun t => (rows t).map (·.backfilled d)))

/-! ### Rows -/

/-- The multi-row `INSERT`. -/
def insertStatement (schema : TableSchema) (sortKey : Int) (rows : List Row) :
    Except SqlError (Unit × Database) :=
  match db.tables schema.table with
  | none => .error .undefinedTable
  | some table =>
    if schema.columns.all fun c => (table.columns.map Column.name).contains c.name then
      .ok ((), db.setTable schema.table
        { table with rows := table.rows ++ rows.map (schema.stored sortKey) })
    else .error .undefinedColumn

/-! ### Progress -/

/-- The `position` cell of a table's progress row: `stored_position_query`, and the locked select
inside a write. -/
def selectPosition (table : String) : Except SqlError (Option SqlValue × Database) :=
  match db.progress with
  | none => .error .undefinedTable
  | some (.unmigrated _) => .error .undefinedColumn
  | some (.migrated rows) => .ok ((rows table).map ProgressRow.position, db)

/-- The `last_block` cell of a table's progress row. -/
def selectLastBlock (table : String) : Except SqlError (Option SqlValue × Database) :=
  match db.progress with
  | none => .error .undefinedTable
  | some (.unmigrated lastBlocks) => .ok (lastBlocks table, db)
  | some (.migrated rows) => .ok ((rows table).map ProgressRow.lastBlock, db)

/-- The upsert of both progress columns. -/
def watermarkUpsert (table : String) (lastBlock : Int) (position : String) :
    Except SqlError (Unit × Database) :=
  match db.progress with
  | none => .error .undefinedTable
  | some (.unmigrated _) => .error .undefinedColumn
  | some (.migrated rows) =>
    .ok ((), db.setProgress (.migrated
      (Function.update rows table (some ⟨.integer lastBlock, .text position⟩))))

end Database

end ArtemisLight
