import ArtemisLight.Lib.Machine
import ArtemisLight.Lib.Procedure
import ArtemisLight.Lib.Vec
import ArtemisLight.Persistence.Position
import ArtemisLight.Persistence.Sql.Database

/-!
# The SQL store

A write is one transaction: DDL, lazy migration, row inserts, watermark advance.  The transaction
works on a copy of the database, which replaces the committed one only if the commit succeeds.  Any
statement may fail for a reason that is not modelled; such faults are given by the number of the
statement in the transaction.
-/

namespace ArtemisLight

/-- An error of `write`. -/
inductive WriteError where
  /-- The marker of a lost duplicate-object race, which `write` retries. -/
  | ddlRace (e : SqlError)
  | sql (e : SqlError)
  | message (e : Error)
  deriving DecidableEq, Repr

/-- A failure of a statement that its database state does not account for. -/
inductive Fault where
  /-- A concurrent writer created the same object. -/
  | raced
  | failed (message : Error)
  deriving DecidableEq, Repr

def Fault.error : Fault → SqlError
  | .raced => .duplicateObject
  | .failed message => .other message

/-! ### Inside a transaction -/

/-- A transaction: its copy of the database, the copy its savepoint kept, whether a failed statement
has aborted it, and the number of statements so far. -/
structure Session where
  db : Database
  savepoint : Option Database
  aborted : Bool
  statements : Nat

section Statements

variable (d : Dialect) (faults : Nat → Option Fault)

/-- The session after a statement that failed. -/
def Session.failed (s : Session) : Session :=
  { s with aborted := d.abortsOnError, statements := s.statements + 1 }

/-- Run one statement.  An aborted transaction rejects it. -/
def execute {α : Type} (wrap : SqlError → WriteError)
    (statement : Database → Except SqlError (α × Database)) : Proc Session WriteError α :=
  Proc.step fun s =>
    if s.aborted then
      (.error (wrap (.other "current transaction is aborted")), s.failed d)
    else
      match faults s.statements with
      | some fault => (.error (wrap fault.error), s.failed d)
      | none =>
        match statement s.db with
        | .error e => (.error (wrap e), s.failed d)
        | .ok (a, db) => (.ok a, { s with db, statements := s.statements + 1 })

/-- A statement that only controls the transaction: `BEGIN`, `COMMIT`. -/
def control : Proc Session WriteError Unit := execute d faults .sql fun db => .ok ((), db)

/-- `SAVEPOINT` -/
def savepointBegin : Proc Session WriteError Unit := do
  control d faults
  Proc.step fun s => (.ok (), { s with savepoint := some s.db })

/-- `RELEASE SAVEPOINT` -/
def savepointRelease : Proc Session WriteError Unit := do
  control d faults
  Proc.step fun s => (.ok (), { s with savepoint := none })

/-- `ROLLBACK TO SAVEPOINT`, which an aborted transaction accepts. -/
def savepointRollback : Proc Session WriteError Unit :=
  Proc.step fun s =>
    match faults s.statements, s.savepoint with
    | some fault, _ => (.error (.sql fault.error), s.failed d)
    | none, none => (.error (.sql (.other "no such savepoint")), s.failed d)
    | none, some db => (.ok (), { s with db, aborted := false, statements := s.statements + 1 })

end Statements

/-! ### Sort keys, rows, positions -/

/-- A sort key as the signed 64-bit value of the block columns. -/
def sortKeyToI64 (key : Nat) : Except WriteError Int :=
  if key ≤ i64Max then .ok key
  else .error (.message (s!"position sort key {key} exceeds i64::MAX ({i64Max}); "
    ++ "sort keys are stored in signed 64-bit SQL columns"))

/-- Cap on bind parameters per statement. -/
def bindParamCap : Nat := 999

/-- How many rows fit one insert. -/
def rowsPerChunk (paramsPerRow : Nat) : Nat := max (bindParamCap / max paramsPerRow 1) 1

/-- Reject rows whose value count does not match the schema. -/
def checkRowShapes (schema : TableSchema) : List Row → Except WriteError Unit
  | [] => .ok ()
  | row :: rows =>
    if row.cells.length = schema.columns.length then checkRowShapes schema rows
    else .error (.message (s!"row has {row.cells.length} values but table {repr schema.table} has "
      ++ s!"{schema.columns.length} columns"))

/-- `try_get::<Option<String>, _>(0)` -/
def textCell : SqlValue → Except SqlError (Option String)
  | .text s => .ok (some s)
  | .null => .ok none
  | _ => .error (.other "mismatched types")

/-- `try_get::<Option<i64>, _>(0)` -/
def integerCell : SqlValue → Except SqlError (Option Int)
  | .integer i => .ok (some i)
  | .null => .ok none
  | _ => .error (.other "mismatched types")

/-! ### The store -/

/-- The committed database, and what one store instance remembers: whether it has probed for the
migration. -/
structure SqlStore where
  db : Database
  migrationChecked : Bool

section Write

variable (d : Dialect) (faults : Nat → Option Fault)

/-- Wrap a benign duplicate-object race of the DDL path. -/
def classifyDdl (e : SqlError) : WriteError :=
  if e = .duplicateObject then .ddlRace e else .sql e

/-- Create the progress and event tables if absent. -/
def createTables (schema : TableSchema) : Proc Session WriteError Unit := do
  execute d faults classifyDdl Database.createProgressTable
  execute d faults classifyDdl (Database.createEventTable · d schema)

/-- Migrate a two-column archive, unless this instance has already checked.  The probe runs under a
savepoint, because its failure may abort the transaction. -/
def migrateIfNeeded (migrationChecked : Bool) : Proc Session WriteError Unit := do
  if migrationChecked then return ()
  savepointBegin d faults
  match ← Proc.attempt (execute d faults .sql Database.probePositionColumn) with
  | .ok _ => savepointRelease d faults
  | .error (.sql .undefinedColumn) =>
    savepointRollback d faults
    savepointRelease d faults
    execute d faults classifyDdl Database.addPositionColumn
    execute d faults .sql (Database.backfillPositionFromLastBlock · d)
  | .error e => throw e

/-- Insert the chunks, one statement each. -/
def insertChunks (schema : TableSchema) (sortKey : Int) :
    List (List Row) → Proc Session WriteError Unit
  | [] => return ()
  | chunk :: rest => do
    Proc.ofExcept (checkRowShapes schema chunk)
    execute d faults .sql (Database.insertStatement · schema sortKey chunk)
    insertChunks schema sortKey rest

/-- Insert rows as multi-row inserts under the bind-parameter cap. -/
def insertRows (schema : TableSchema) (sortKey : Int) (rows : List Row) :
    Proc Session WriteError Unit :=
  insertChunks d faults schema sortKey (chunks (rowsPerChunk (1 + schema.columns.length)) rows)

variable {P : Type} [Position P] [PositionEncoding P]

/-- The position in a `position` cell; there is none without a row or in a `NULL` cell. -/
def decodePosition (P : Type) [PositionEncoding P] : Option SqlValue → Except WriteError (Option P)
  | none => .ok none
  | some cell =>
    match textCell cell with
    | .error e => .error (.sql e)
    | .ok none => .ok none
    | .ok (some encoded) => (some <$> PositionEncoding.decode encoded).mapError .message

/-- The previous position, as the transaction reads it under the row lock. -/
def lockedPosition (P : Type) [PositionEncoding P] (table : String) :
    Proc Session WriteError (Option P) := do
  let cell ← execute d faults .sql (Database.selectPosition · table)
  Proc.ofExcept (decodePosition P cell)

/-- Advance the previous position and upsert the result. -/
def advanceWatermark (schema : TableSchema) (position : P) : Proc Session WriteError Unit := do
  let prev ← lockedPosition d faults P schema.table
  let next := Position.advance prev position
  let nextKey ← Proc.ofExcept (sortKeyToI64 (Position.sortKey next))
  execute d faults .sql
    (Database.watermarkUpsert · schema.table nextKey (PositionEncoding.encode next))

/-- The statements of one write, `BEGIN` and `COMMIT` included. -/
def transaction (migrationChecked : Bool) (schema : TableSchema) (position : P) (rows : List Row) :
    Proc Session WriteError Unit := do
  control d faults
  createTables d faults schema
  migrateIfNeeded d faults migrationChecked
  let sortKey ← Proc.ofExcept (sortKeyToI64 (Position.sortKey position))
  insertRows d faults schema sortKey rows
  advanceWatermark d faults schema position
  control d faults

/-- One write attempt.  The migration check is recorded only after a successful commit. -/
def SqlStore.writeOnce (s : SqlStore) (schema : TableSchema) (position : P) (rows : List Row) :
    Except WriteError Unit × SqlStore :=
  match (transaction d faults s.migrationChecked schema position rows).exec
      ⟨s.db, none, false, 0⟩ with
  | (.ok (), session) => (.ok (), ⟨session.db, true⟩)
  | (.error e, _) => (.error e, s)

/-- Write, and retry once after a lost DDL race.  `faults` are those of each attempt, and `race` is
what the winner of the race has committed before the second one. -/
def SqlStore.write (faults : Nat → Nat → Option Fault) (race : Database → Database) (s : SqlStore)
    (schema : TableSchema) (position : P) (rows : List Row) : Except WriteError Unit × SqlStore :=
  match s.writeOnce d (faults 0) schema position rows with
  | (.error (.ddlRace _), s) =>
    SqlStore.writeOnce d (faults 1) { s with db := race s.db } schema position rows
  | result => result

end Write

/-! ### Reads -/

section Reads

variable {P : Type} [PositionEncoding P]

/-- The read-side fallback: `last_block`'s decimal text. -/
def resumeFromLastBlock (P : Type) [PositionEncoding P] (db : Database) (table : String) :
    Except WriteError (Option P) :=
  match db.selectLastBlock table with
  | .error .undefinedTable => .ok none
  | .error e => .error (.sql e)
  | .ok (none, _) => .ok none
  | .ok (some cell, _) =>
    match integerCell cell with
    | .error e => .error (.sql e)
    | .ok (some lastBlock) =>
      (some <$> PositionEncoding.decode (toString lastBlock)).mapError .message
    | .ok none =>
      .error (.message (s!"progress row for table {repr table} has a NULL last_block and no "
        ++ "encoded position; the progress table is corrupt or foreign"))

/-- The stored position of a table: the encoded one, else the one of `last_block`.  The fallback is
a query of its own, whose database may be a later one. -/
def storedPositionAcross (P : Type) [PositionEncoding P] (db later : Database) (table : String) :
    Except WriteError (Option P) :=
  match db.selectPosition table with
  | .ok (none, _) => .ok none
  | .error .undefinedTable => .ok none
  | .error .undefinedColumn => resumeFromLastBlock P later table
  | .error e => .error (.sql e)
  | .ok (some cell, _) =>
    match textCell cell with
    | .error e => .error (.sql e)
    | .ok (some text) => (some <$> PositionEncoding.decode text).mapError .message
    | .ok none => resumeFromLastBlock P later table

/-- The stored position of a table in a database that no one else writes to. -/
def storedPosition (P : Type) [PositionEncoding P] (db : Database) (table : String) :
    Except WriteError (Option P) :=
  storedPositionAcross P db db table

end Reads

end ArtemisLight
