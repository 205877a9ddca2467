import ArtemisLight.Persistence.Record

/-!
# Cells as JSON

How the serving layer renders a queried row.  What the database driver makes of a cell is `Cell`,
and how a text parses as JSON is an argument: both belong to libraries.
-/

namespace ArtemisLight

/-- One queried row: a typed, nullable cell by name. -/
class Cell (R : Type) where
  tryI64 : R → String → Except Error (Option Int)
  tryF64 : R → String → Except Error (Option UInt64)
  tryBytes : R → String → Except Error (Option (List UInt8))
  tryString : R → String → Except Error (Option String)

/-- `str::to_ascii_uppercase` -/
def toAsciiUppercase (s : String) : String := String.ofList (s.toList.map Char.toUpper)

/-- Bytes as a `0x`-prefixed lowercase hex string. -/
def toHex (bytes : List UInt8) : String :=
  "0x" ++ String.ofList
    (bytes.flatMap fun b => [Nat.digitChar (b.toNat / 16), Nat.digitChar (b.toNat % 16)])

/-- `Value::from(i64)` -/
def valueFromI64 (i : Int) : Value :=
  .number (if i < 0 then .negInt i else .posInt i.toNat)

/-- `Number::from_f64`: an infinity or a NaN, whose exponent bits are all set, is no JSON number. -/
def valueFromF64 (bits : UInt64) : Value :=
  if bits >>> 52 &&& 0x7ff = 0x7ff then .null else .number (.float bits)

/-- `Map::insert` -/
def insertField (name : String) (value : Value) : List (String × Value) → List (String × Value)
  | [] => [(name, value)]
  | (other, v) :: rest =>
    if name < other then (name, value) :: (other, v) :: rest
    else if name = other then (name, value) :: rest
    else (other, v) :: insertField name value rest

section Row

variable {R : Type} [Cell R] (parse : String → Option Value)

/-- The payload as nested JSON, or the raw string if it does not parse. -/
def parsePayload (raw : String) : Value := (parse raw).getD (.string raw)

/-- The decode rule of one cell, by its column's type. -/
def cellToJson (row : R) (name ty : String) : Except Error Value :=
  match toAsciiUppercase ty with
  | "INTEGER" => do return (← Cell.tryI64 row name).elim .null valueFromI64
  | "REAL" => do return (← Cell.tryF64 row name).elim .null valueFromF64
  | "BLOB" => do return (← Cell.tryBytes row name).elim .null fun bytes => .string (toHex bytes)
  | _ => do return (← Cell.tryString row name).elim .null fun s =>
      if name = payloadColumn then parsePayload parse s else .string s

/-- One row as a JSON object. -/
def rowToJson (row : R) (columns : List (String × String)) : Except Error (List (String × Value)) :=
  columns.foldlM (fun obj column => do
    return insertField column.1 (← cellToJson parse row column.1 column.2) obj) []

end Row

end ArtemisLight
