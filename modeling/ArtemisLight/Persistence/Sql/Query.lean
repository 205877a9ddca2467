import ArtemisLight.Lib.Procedure
import ArtemisLight.Lib.Vec
import ArtemisLight.Persistence.Sql.SqlStore

/-!
# The text of the statements

What the two backends differ in, the texts composed from a schema, and the multi-row inserts of a
write with the values they bind.
-/

namespace ArtemisLight

/-- The storage backends. -/
inductive Backend where
  | sqlite
  | postgres
  deriving DecidableEq, Repr

namespace Backend

/-- The placeholder of the `n`th bound parameter, counted from one. -/
def placeholder (b : Backend) (n : Nat) : String :=
  match b with
  | .sqlite => "?"
  | .postgres => "$" ++ toString n

/-- The column that orders the rows of one block. -/
def tiebreak : Backend → String
  | .sqlite => "rowid"
  | .postgres => "ctid"

/-- The keyword that a column is declared with. -/
def columnType (b : Backend) (ty : SqlType) : String :=
  match b, ty with
  | .sqlite, ty => ArtemisLight.columnType ty
  | .postgres, .integer => "BIGINT"
  | .postgres, .real => "DOUBLE PRECISION"
  | .postgres, .text => "TEXT"
  | .postgres, .blob => "BYTEA"
  | .postgres, .numeric => "TEXT"

end Backend

/-- `str::replace` of a character. -/
def replaceChar (s : String) (c : Char) (text : String) : String :=
  String.ofList (s.toList.flatMap fun d => if d = c then text.toList else [d])

/-- Quote a table or column name. -/
def quoteIdent (name : String) : String := "\"" ++ replaceChar name '"' "\"\"" ++ "\""

namespace Query

variable (schema : TableSchema) (dialect : Backend)

/-- The columns that an insert targets: the block column, and one column per event field. -/
def insertColumnNames : List String :=
  blockNumberColumn :: schema.columns.map fun c => quoteIdent c.name

/-- The columns that a replay projects. -/
def selectColumnList : String := ", ".intercalate (schema.columns.map fun c => quoteIdent c.name)

/-- `CREATE TABLE IF NOT EXISTS` for an event table. -/
def createEventTable : String :=
  let defs := (blockNumberColumn ++ " " ++ dialect.columnType .integer ++ " NOT NULL") ::
    schema.columns.map fun c => quoteIdent c.name ++ " " ++ dialect.columnType c.ty
  "CREATE TABLE IF NOT EXISTS " ++ quoteIdent schema.table ++ " (" ++ ", ".intercalate defs ++ ")"

/-- The placeholders of one row of a multi-row insert. -/
def placeholderGroup (columns row : Nat) : String :=
  let placeholders := ", ".intercalate ((List.range' 1 columns).map fun i =>
    dialect.placeholder (row * columns + i))
  "(" ++ placeholders ++ ")"

/-- The multi-row `INSERT`: one placeholder group per row, numbered across the rows. -/
def insertStatement (rows : Nat) : String :=
  let colNames := insertColumnNames schema
  let groups := ", ".intercalate ((List.range rows).map (placeholderGroup dialect colNames.length))
  "INSERT INTO " ++ quoteIdent schema.table ++ " (" ++ ", ".intercalate colNames ++ ") VALUES "
    ++ groups

/-- The replay `SELECT`. -/
def replayQuery : String :=
  "SELECT " ++ selectColumnList schema ++ " FROM " ++ quoteIdent schema.table ++ " WHERE "
    ++ blockNumberColumn ++ " <= " ++ dialect.placeholder 1 ++ " ORDER BY " ++ blockNumberColumn
    ++ " ASC, " ++ dialect.tiebreak ++ " ASC"

/-- The serving layer's paged, block-range query.  An optional schema pins the table. -/
def rangeQuery (table : String) (schema : Option String) : String :=
  let block := quoteIdent blockNumberColumn
  let tableRef := match schema with
    | some schema => quoteIdent schema ++ "." ++ quoteIdent table
    | none => quoteIdent table
  "SELECT * FROM " ++ tableRef ++ " WHERE " ++ block ++ " BETWEEN " ++ dialect.placeholder 1
    ++ " AND " ++ dialect.placeholder 2 ++ " ORDER BY " ++ block ++ " ASC, " ++ dialect.tiebreak
    ++ " ASC LIMIT " ++ dialect.placeholder 3 ++ " OFFSET " ++ dialect.placeholder 4

end Query

/-! ### Inserting rows -/

/-- A statement with the values bound to its placeholders, in order. -/
structure Statement where
  sql : String
  args : List SqlValue
  deriving DecidableEq, Repr

/-- The values of a chunk of rows: each row binds the sort key ahead of its own cells. -/
def bindRows (schema : TableSchema) (sortKey : SqlValue) :
    List Row → Except WriteError (List SqlValue)
  | [] => .ok []
  | row :: rows => do
    checkRowShapes schema [row]
    let args ← bindRows schema sortKey rows
    return sortKey :: row.cells ++ args

section Send

variable {S : Type} (dialect : Backend) (send : Statement → Proc S WriteError Unit)
  (schema : TableSchema) (sortKey : SqlValue) (chunkRows : Nat)

/-- The text for a chunk, and the full-chunk text that is kept for the chunks to come. -/
def chunkInsert (fullChunkInsert : Option String) (chunk : List Row) : String × Option String :=
  if chunk.length = chunkRows then
    let insert := fullChunkInsert.getD (Query.insertStatement schema dialect chunkRows)
    (insert, some insert)
  else (Query.insertStatement schema dialect chunk.length, fullChunkInsert)

/-- One statement per chunk. -/
def sendChunks (fullChunkInsert : Option String) : List (List Row) → Proc S WriteError Unit
  | [] => return ()
  | chunk :: rest => do
    let (insert, fullChunkInsert) := chunkInsert dialect schema chunkRows fullChunkInsert chunk
    let args ← Proc.ofExcept (bindRows schema sortKey chunk)
    send ⟨insert, args⟩
    sendChunks fullChunkInsert rest

/-- `insert_rows` on a connection that is sent statements. -/
def sendRows (rows : List Row) : Proc S WriteError Unit :=
  let chunkRows := rowsPerChunk (1 + schema.columns.length)
  sendChunks dialect send schema sortKey chunkRows none (chunks chunkRows rows)

end Send

end ArtemisLight
