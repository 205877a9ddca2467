import ArtemisLight.Persistence.Record

/-!
# How a record gets its names

The paths on which a `Record` reaches a writer: the constructors of the record itself, and the
settings of a `Persisted` wrapper, of which `resolveRecord` makes a record at subscribe.
-/

namespace ArtemisLight

/-! ### Table names -/

/-- Convert `PascalCase` or `camelCase` to `snake_case`. -/
def toSnakeCase (s : String) : String :=
  match s.toList with
  | [] => ""
  | c :: cs =>
    String.ofList (c.toLower :: cs.flatMap fun ch => if ch.isUpper then ['_', ch.toLower] else [ch])

/-- The best-guess table name for an event type with this Solidity signature. -/
def tableName (signature : String) : String :=
  toSnakeCase (String.ofList (signature.toList.takeWhile (· ≠ '(')))

/-! ### Records -/

/-- A record for an event type, honouring an optional schema override. -/
def Record.new (signature : String) (override : Option TableSchema) : Except Error Record :=
  match override with
  | some schema => Record.declared schema
  | none => .ok (Record.inferred (tableName signature))

/-! ### The wrapper -/

/-- The schema override and the table name of a `Persisted` wrapper. -/
structure Names where
  schema : Option TableSchema
  table : Option String
  deriving DecidableEq

namespace Names

/-- A wrapper that has not been told anything. -/
def new : Names := ⟨none, none⟩

/-- Persist under this table. -/
def withTable (names : Names) (table : String) : Names := { names with table := some table }

/-- Persist under this schema. -/
def trySchema (names : Names) (schema : TableSchema) : Except Error Names :=
  match schema.ensureNoReservedNames with
  | .error reason => .error s!"invalid schema override: {reason}"
  | .ok () => .ok { names with schema := some schema }

/-- The table name is captured from the event's signature. -/
def withPersistence (signature : String) : Names := new.withTable (tableName signature)

/-- The table name is given. -/
def withPersistenceNamed (table : String) : Names := new.withTable table

end Names

/-- The record of a wrapper: a schema override wins over a table name. -/
def resolveRecord (schema : Option TableSchema) (table : Option String) : Except Error Record :=
  match schema, table with
  | some schema, _ => Record.declared schema
  | none, some table => .ok (Record.inferred table)
  | none, none =>
      .error ("no table name for persisted events: use with_persistence (SolEvent types), "
      ++ "with_persistence_named, with_table, or try_with_schema")

/-! ### Every path -/

/-- One call on a wrapper that concerns its names. -/
inductive Setting where
  /-- `with_table` -/
  | table (table : String)
  /-- `try_with_schema` -/
  | schema (schema : TableSchema)
  deriving DecidableEq

/-- The wrapper after one more call. -/
def Setting.apply (names : Names) : Setting → Except Error Names
  | .table name => .ok (names.withTable name)
  | .schema override => names.trySchema override

/-- A path on which a record is constructed.  A wrapper starts as `Persisted::new`,
`with_persistence` or `with_persistence_named` leaves it. -/
inductive Construction where
  | new (signature : String) (override : Option TableSchema)
  | declared (schema : TableSchema)
  | inferred (table : String)
  | bare (settings : List Setting)
  | withPersistence (signature : String) (settings : List Setting)
  | withPersistenceNamed (table : String) (settings : List Setting)

/-- The record of a wrapper after some calls. -/
def resolveSettings (names : Names) : List Setting → Except Error Record
  | [] => resolveRecord names.schema names.table
  | setting :: settings =>
    match setting.apply names with
    | .error e => .error e
    | .ok names => resolveSettings names settings

/-- The record that a path ends in. -/
def Construction.build : Construction → Except Error Record
  | .new signature override => Record.new signature override
  | .declared schema => Record.declared schema
  | .inferred table => .ok (Record.inferred table)
  | .bare settings => resolveSettings .new settings
  | .withPersistence signature settings => resolveSettings (.withPersistence signature) settings
  | .withPersistenceNamed table settings => resolveSettings (.withPersistenceNamed table) settings

end ArtemisLight
