import Mathlib.Data.List.Sort
import ArtemisLight.Persistence.Sql.SqlStore

/-!
# The replay query

`SELECT … WHERE block_number <= … ORDER BY block_number ASC, <tie-breaker> ASC`, and the decoding of
its rows.  A backend returns a cell as it was bound.  The tie-breaker is a column that every table
has, `rowid` or `ctid`, and that grows with insertion; a column of the table may take its name.
-/

namespace ArtemisLight

/-- What the replay query relies on of a backend. -/
structure ReplayBackend where
  /-- Whether a select list may be empty. -/
  emptySelect : Bool
  /-- Whether a column of this name takes the place of the tie-breaker. -/
  hidesTiebreak : String → Bool
  /-- The order of the cells of such a column. -/
  cellLe : SqlValue → SqlValue → Bool
  cellLe_trans : ∀ a b c, cellLe a b → cellLe b c → cellLe a c
  cellLe_total : ∀ a b, cellLe a b ∨ cellLe b a

namespace ReplayBackend

/-- PostgreSQL has no table with a column called `ctid`. -/
def postgres : ReplayBackend where
  emptySelect := true
  hidesTiebreak _ := false
  cellLe _ _ := true
  cellLe_trans _ _ _ _ _ := rfl
  cellLe_total _ _ := .inl rfl

/-- SQLite, up to the order of its cells. -/
def sqlite (cellLe : SqlValue → SqlValue → Bool)
    (htrans : ∀ a b c, cellLe a b → cellLe b c → cellLe a c)
    (htotal : ∀ a b, cellLe a b ∨ cellLe b a) : ReplayBackend where
  emptySelect := false
  hidesTiebreak name := name.toList.map Char.toLower = "rowid".toList
  cellLe := cellLe
  cellLe_trans := htrans
  cellLe_total := htotal

/-- The column that takes the place of the tie-breaker. -/
def tiebreakColumn (b : ReplayBackend) (columns : List Column) : Option Column :=
  columns.find? fun c => b.hidesTiebreak c.name

end ReplayBackend

/-! ### The query -/

/-- A cell by its column; a column that an insert left out is `NULL`. -/
def StoredRow.cell (row : StoredRow) (name : String) : SqlValue :=
  (row.cells.lookup name).getD .null

/-- `ORDER BY block_number ASC, <tie-breaker> ASC`.  Insertion decides between rows that it does not
tell apart. -/
def StoredRow.before (b : ReplayBackend) (tiebreak : Option Column) (row row' : StoredRow) : Bool :=
  if row.blockNumber = row'.blockNumber then
    match tiebreak with
    | none => true
    | some c => b.cellLe (row.cell c.name) (row'.cell c.name)
  else row.blockNumber < row'.blockNumber

/-- The replay `SELECT`: the cells of the schema's columns, row by row. -/
def Database.replayQuery (db : Database) (b : ReplayBackend) (schema : TableSchema) (upTo : Int) :
    Except SqlError (List (List SqlValue)) :=
  if schema.columns = [] ∧ b.emptySelect = false then .error (.other "syntax error")
  else if schema.table = progressTable then
    -- the progress table has no column of blocks
    match db.progress with
    | none => .error .undefinedTable
    | some _ => .error .undefinedColumn
  else
    match db.tables schema.table with
    | none => .error .undefinedTable
    | some table =>
      if schema.columns.all fun c => (table.columns.map Column.name).contains c.name then
        let selected := table.rows.filter fun row => row.blockNumber ≤ upTo
        let sorted := selected.insertionSort fun row row' =>
          StoredRow.before b (b.tiebreakColumn table.columns) row row' = true
        .ok (sorted.map fun row => schema.columns.map fun c => row.cell c.name)
      else .error .undefinedColumn

/-! ### Decoding -/

/-- `try_get` at the type of a column, which is not optional. -/
def decodeValue (ty : SqlType) (cell : SqlValue) : Except SqlError SqlValue :=
  match ty, cell with
  | .integer, .integer i => .ok (.integer i)
  | .real, .real r => .ok (.real r)
  | .text, .text s => .ok (.text s)
  | .numeric, .text s => .ok (.text s)
  | .blob, .blob bytes => .ok (.blob bytes)
  | _, .null => .error (.other "unexpected null")
  | _, _ => .error (.other "mismatched types")

/-- Decode the cells of a row, column by column. -/
def decodeCells : List Column → List SqlValue → Except SqlError (List SqlValue)
  | [], _ => .ok []
  | _ :: _, [] => .error (.other "column index out of bounds")
  | c :: columns, cell :: cells => do
    let value ← decodeValue c.ty cell
    let values ← decodeCells columns cells
    return value :: values

/-- Decode backend rows, up to the first error. -/
def collectRows (schema : TableSchema) : List (List SqlValue) → Except SqlError (List Row)
  | [] => .ok []
  | cells :: rows => do
    let values ← decodeCells schema.columns cells
    let out ← collectRows schema rows
    return ⟨values⟩ :: out

/-- Replay the rows of a table up to and including a position. -/
def SqlStore.replay {P : Type} [Position P] (b : ReplayBackend) (s : SqlStore)
    (schema : TableSchema) (upTo : P) : Except WriteError (List Row) :=
  match sortKeyToI64 (Position.sortKey upTo) with
  | .error e => .error e
  | .ok key =>
    match s.db.replayQuery b schema key with
    | .ok rows => (collectRows schema rows).mapError .sql
    | .error .undefinedTable => .ok []
    | .error e => .error (.sql e)

end ArtemisLight
