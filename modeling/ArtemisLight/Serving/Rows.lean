import Mathlib.Algebra.Group.Int.Defs
import Mathlib.Data.List.Sort
import ArtemisLight.Lib.Page
import ArtemisLight.Persistence.Position
import ArtemisLight.Persistence.Sql.Database
import ArtemisLight.Serving.Json

/-!
# Row queries

`GET /tables/{table}/rows`: the table guard, the query parameters and their bounds, the paged range
query, and the handler.  A request reads one committed database.
-/

namespace ArtemisLight

/-! ### Errors -/

/-- What the handler answers instead of rows. -/
inductive ServingError where
  | unknownTable (table : String)
  | invalidQuery (param : String)
  | database (e : Error)
  deriving DecidableEq, Repr

/-- The HTTP status. -/
def ServingError.status : ServingError → Nat
  | .unknownTable _ => 404
  | .invalidQuery _ => 400
  | .database _ => 500

/-- The text of the error body. -/
def ServingError.message : ServingError → String
  | .unknownTable table => s!"unknown table: {table}"
  | .invalidQuery param => s!"invalid query parameter: {param}"
  | .database _ => "database error"

/-! ### The catalog -/

/-- `LIKE 'sqlite_%'`: the underscore is any character, and letters match in either case. -/
def likeSqlite (name : String) : Bool :=
  decide ((name.toList.take 6).map Char.toLower = "sqlite".toList) && decide (6 < name.length)

/-- The canonical type of a declared one: a numeric cell decodes to text. -/
def normalizeType (declared : String) : String :=
  match toAsciiUppercase declared with
  | "NUMERIC" => "TEXT"
  | other => other

namespace Database

variable (db : Database) (table : String)

/-- The validated-table guard: a real event table, not the bookkeeping one and none of SQLite's
own. -/
def tableExists : Bool :=
  (db.tables table).isSome && decide (table ≠ progressTable) && !likeSqlite table

/-- `PRAGMA table_info`: the names and types of the columns, in declared order. -/
def tableColumns : List (String × String) :=
  match db.tables table with
  | none => []
  | some t => (blockNumberColumn, normalizeType (columnType .integer)) ::
      t.columns.map fun c => (c.name, normalizeType (columnType c.ty))

/-- `LIMIT` with a negative argument is no limit. -/
def limited {α : Type} (limit : Int) (rows : List α) : List α :=
  if limit < 0 then rows else rows.take limit.toNat

/-- `SELECT * … WHERE block_number BETWEEN … ORDER BY block_number ASC, rowid ASC LIMIT … OFFSET …`.
Row ids grow with insertion, so the second key of the order is that of the list, which a stable sort
keeps. -/
def rangeQuery (fromBlock toBlock limit offset : Int) : Except SqlError (List StoredRow) :=
  match db.tables table with
  | none => .error .undefinedTable
  | some t =>
    let selected := t.rows.filter fun r =>
      decide (fromBlock ≤ r.blockNumber) && decide (r.blockNumber ≤ toBlock)
    let sorted := selected.insertionSort fun r r' => r.blockNumber ≤ r'.blockNumber
    .ok (limited limit (sorted.drop offset.toNat))

end Database

/-! ### Query parameters -/

/-- `char::is_whitespace` -/
def isWhitespace (c : Char) : Bool :=
  let n := c.toNat
  (9 ≤ n && n ≤ 13) || n = 0x20 || n = 0x85 || n = 0xa0 || n = 0x1680 ||
    (0x2000 ≤ n && n ≤ 0x200a) || n = 0x2028 || n = 0x2029 || n = 0x202f || n = 0x205f || n = 0x3000

/-- `str::trim` -/
def trim (s : String) : String :=
  String.ofList ((s.toList.dropWhile isWhitespace).reverse.dropWhile isWhitespace).reverse

/-- `u64::clamp` -/
def clampU64 (n lo hi : Nat) : Nat := if n < lo then lo else if hi < n then hi else n

/-- `n as i64` -/
def asI64 (n : Nat) : Int := if n ≤ i64Max then n else n - 2 ^ 64

/-- The raw query parameters. -/
structure RowsQueryParams where
  fromBlock : Option String
  toBlock : Option String
  limit : Option String
  offset : Option String
  deriving DecidableEq, Repr

/-- Resolved, validated query bounds. -/
structure Bounds where
  fromBlock : Nat
  toBlock : Nat
  limit : Nat
  offset : Nat
  deriving DecidableEq, Repr

/-- `parse_u64`: an absent parameter has its default. -/
def parseParam (name : String) (raw : Option String) (default : Nat) : Except ServingError Nat :=
  match raw with
  | none => .ok default
  | some s =>
    match parseU64 (trim s) with
    | some n => .ok n
    | none => .error (.invalidQuery name)

/-- Validate and resolve the parameters.  Every bound is bound to SQL as a signed integer, so it is
clamped to `i64::MAX`. -/
def RowsQueryParams.resolve (params : RowsQueryParams) (defaultLimit maxLimit : Nat) :
    Except ServingError Bounds := do
  let fromBlock := min (← parseParam "from_block" params.fromBlock 0) i64Max
  let toBlock := min (← parseParam "to_block" params.toBlock i64Max) i64Max
  let limit := clampU64 (← parseParam "limit" params.limit defaultLimit) 1
    (clampU64 maxLimit 1 i64Max)
  let offset := min (← parseParam "offset" params.offset 0) i64Max
  return { fromBlock, toBlock, limit, offset }

/-! ### The handler -/

/-- The success body. -/
structure RowsResponse where
  rows : List (List (String × Value))
  limit : Nat
  offset : Nat

/-- The configured paging limits. -/
structure AppState where
  defaultLimit : Nat
  maxLimit : Nat
  deriving DecidableEq, Repr

variable [Cell StoredRow] (parse : String → Option Value)

/-- A page of rows of a validated table, as JSON objects. -/
def queryRows (db : Database) (table : String) (bounds : Bounds) :
    Except Error (List (List (String × Value))) := do
  let columns := db.tableColumns table
  let rows ← (db.rangeQuery table (asI64 bounds.fromBlock) (asI64 bounds.toBlock)
    (asI64 bounds.limit) (asI64 bounds.offset)).mapError fun e => reprStr e
  rows.mapM fun row => rowToJson parse row columns

/-- `GET /tables/{table}/rows` -/
def queryRowsHandler (state : AppState) (db : Database) (table : String)
    (params : RowsQueryParams) :
    Except ServingError RowsResponse :=
  if db.tableExists table then
    match params.resolve state.defaultLimit state.maxLimit with
    | .error e => .error e
    | .ok bounds =>
      match queryRows parse db table bounds with
      | .error e => .error (.database e)
      | .ok rows => .ok ⟨rows, bounds.limit, bounds.offset⟩
  else .error (.unknownTable table)

end ArtemisLight
