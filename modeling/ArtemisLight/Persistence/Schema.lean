/-!
# Table schemas and row values

The column types, cells, rows and table schemas every store shares, with the identifiers the
persistence layer reserves for itself.
-/

namespace ArtemisLight

/-- The implicit per-row block column every store adds when writing. -/
def blockNumberColumn : String := "block_number"

/-- The implicit column holding each event's full JSON. -/
def payloadColumn : String := "_payload"

/-- The bookkeeping table holding per-table progress. -/
def progressTable : String := "_artemis_progress"

/-- A SQL column type. -/
inductive SqlType where
  | integer
  | real
  | text
  | blob
  | numeric
  deriving DecidableEq, Repr

/-- The keyword that a SQLite column is declared with. -/
def columnType : SqlType → String
  | .integer => "INTEGER"
  | .real => "REAL"
  | .text => "TEXT"
  | .blob => "BLOB"
  | .numeric => "NUMERIC"

/-- A scalar value bound into / read out of a SQL cell.  A real is its IEEE 754 bit pattern. -/
inductive SqlValue where
  | integer (i : Int)
  | real (bits : UInt64)
  | text (s : String)
  | blob (bytes : List UInt8)
  | null
  deriving DecidableEq, Repr

/-- One row's worth of event-field values, ordered to match the schema's columns. -/
structure Row where
  cells : List SqlValue
  deriving DecidableEq, Repr

/-- A single column in a table schema. -/
structure Column where
  name : String
  ty : SqlType
  deriving DecidableEq, Repr

/-- The schema for one event's table: a table name and its event-field columns. -/
structure TableSchema where
  table : String
  columns : List Column
  deriving DecidableEq, Repr

/-- The cell of the last column, which for a row built by a record is the event's payload. -/
def Row.payload? (row : Row) : Option SqlValue := row.cells.getLast?

end ArtemisLight
