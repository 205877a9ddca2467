import ArtemisLight.Persistence.Sql.SqlStore

/-!
## What a write does

Each helper of a write attempt is described by the database it leaves when it returns; a helper that
fails fails the transaction, whose copy of the database is dropped.  `writeOnce_ok` puts them
together.
-/

namespace ArtemisLight

variable {d : Dialect} {faults : Nat → Option Fault} {s s' : Session}

/-! ### Statements -/

theorem execute_ok {α : Type} {wrap : SqlError → WriteError}
    {statement : Database → Except SqlError (α × Database)} {a : α}
    (h : (execute d faults wrap statement).exec s = (.ok a, s')) :
    ∃ db, statement s.db = .ok (a, db) ∧ s' = { s with db, statements := s.statements + 1 } := by
  unfold execute at h
  rw [Proc.exec_step] at h
  split at h
  · exact nomatch (Prod.mk.inj h).1
  · split at h
    · exact nomatch (Prod.mk.inj h).1
    · split at h
      · exact nomatch (Prod.mk.inj h).1
      · rename_i a' db hdb
        obtain ⟨ha, rfl⟩ := Prod.mk.inj h
        obtain rfl := Except.ok.inj ha
        exact ⟨db, hdb, rfl⟩

/-- A statement that fails leaves the database as it was. -/
theorem execute_error {α : Type} {wrap : SqlError → WriteError}
    {statement : Database → Except SqlError (α × Database)} {e : WriteError}
    (h : (execute d faults wrap statement).exec s = (.error e, s')) : s' = s.failed d := by
  unfold execute at h
  rw [Proc.exec_step] at h
  split at h
  · exact (Prod.mk.inj h).2.symm
  · split at h
    · exact (Prod.mk.inj h).2.symm
    · split at h
      · exact (Prod.mk.inj h).2.symm
      · exact nomatch (Prod.mk.inj h).1

/-- Without faults, a statement does what the database does. -/
theorem execute_run {α : Type} {wrap : SqlError → WriteError}
    {statement : Database → Except SqlError (α × Database)} {a : α} {db : Database}
    (hs : s.aborted = false) (h : statement s.db = .ok (a, db)) :
    (execute d (fun _ => none) wrap statement).exec s
      = (.ok a, { s with db, statements := s.statements + 1 }) := by
  unfold execute
  rw [Proc.exec_step, hs, h]
  rfl

theorem execute_run_error {α : Type} {wrap : SqlError → WriteError}
    {statement : Database → Except SqlError (α × Database)} {e : SqlError}
    (hs : s.aborted = false) (h : statement s.db = .error e) :
    (execute d (fun _ => none) wrap statement).exec s = (.error (wrap e), s.failed d) := by
  unfold execute
  rw [Proc.exec_step, hs, h]
  rfl

theorem control_ok (h : (control d faults).exec s = (.ok (), s')) :
    s' = { s with statements := s.statements + 1 } := by
  obtain ⟨db, hdb, rfl⟩ := execute_ok h
  rw [(Prod.mk.inj (Except.ok.inj hdb)).2]

theorem savepointBegin_ok (h : (savepointBegin d faults).exec s = (.ok (), s')) :
    s' = { s with savepoint := some s.db, statements := s.statements + 1 } := by
  obtain ⟨⟨⟩, s₁, hcontrol, hstep⟩ := Proc.exec_bind_eq_ok h
  rw [control_ok hcontrol] at hstep
  exact (Prod.mk.inj hstep).2.symm

theorem savepointRelease_ok (h : (savepointRelease d faults).exec s = (.ok (), s')) :
    s' = { s with savepoint := none, statements := s.statements + 1 } := by
  obtain ⟨⟨⟩, s₁, hcontrol, hstep⟩ := Proc.exec_bind_eq_ok h
  rw [control_ok hcontrol] at hstep
  exact (Prod.mk.inj hstep).2.symm

theorem savepointRollback_ok (h : (savepointRollback d faults).exec s = (.ok (), s')) :
    ∃ db, s.savepoint = some db ∧
      s' = { s with db, aborted := false, statements := s.statements + 1 } := by
  unfold savepointRollback at h
  rw [Proc.exec_step] at h
  split at h
  · exact nomatch (Prod.mk.inj h).1
  · exact nomatch (Prod.mk.inj h).1
  · rename_i db _ hdb
    exact ⟨db, hdb, (Prod.mk.inj h).2.symm⟩

theorem ofExcept_ok {α : Type} {r : Except WriteError α} {a : α}
    (h : (Proc.ofExcept r : Proc Session WriteError α).exec s = (.ok a, s')) : r = .ok a ∧
      s' = s := by
  obtain ⟨hr, hs⟩ := Prod.mk.inj h
  exact ⟨hr, hs.symm⟩

/-! ### What the statements do -/

namespace Database

/-- The rows of the progress table, once it is created and migrated. -/
def progressRows (d : Dialect) (db : Database) : String → Option ProgressRow :=
  match db.progress with
  | none => fun _ => none
  | some (.unmigrated lastBlocks) => fun t => (lastBlocks t).map fun l =>
      ProgressRow.backfilled d ⟨l, .null⟩
  | some (.migrated rows) => rows

/-- The event table of a schema, once it is created. -/
def eventTable (db : Database) (schema : TableSchema) : EventTable :=
  (db.tables schema.table).getD ⟨schema.columns, []⟩

/-- The progress table exists with its `position` column. -/
def HasPosition (db : Database) : Prop := ∃ rows, db.progress = some (.migrated rows)

variable {db db' : Database} {schema : TableSchema}

theorem progressRows_of_migrated {rows : String → Option ProgressRow}
    (h : db.progress = some (.migrated rows)) : db.progressRows d = rows := by
  unfold progressRows
  rw [h]

theorem createProgressTable_ok (h : db.createProgressTable = .ok ((), db')) :
    db'.progressRows d = db.progressRows d ∧ db'.tables = db.tables := by
  obtain rfl := (Prod.mk.inj (Except.ok.inj h)).2
  cases hp : db.progress with
  | none => simp [setProgress, progressRows, hp]
  | some progress => exact ⟨rfl, rfl⟩

theorem createEventTable_ok (h : db.createEventTable d schema = .ok ((), db')) :
    db.Creates d schema ∧ db'.progress = db.progress ∧
      db'.tables = Function.update db.tables schema.table (some (db.eventTable schema)) := by
  unfold createEventTable at h
  unfold eventTable
  cases ht : db.tables schema.table with
  | none =>
    rw [ht] at h
    by_cases hdistinct : d.identifiers.Distinct (schema.tableColumns.map Column.name)
    · simp only [if_pos hdistinct] at h
      obtain rfl := (Prod.mk.inj (Except.ok.inj h)).2
      exact ⟨Or.inr hdistinct, rfl, rfl⟩
    · simp only [if_neg hdistinct] at h
      exact nomatch h
  | some table =>
    rw [ht] at h
    obtain rfl := (Prod.mk.inj (Except.ok.inj h)).2
    refine ⟨Or.inl (by rw [ht]; rfl), rfl, ?_⟩
    rw [Option.getD_some, ← ht, Function.update_eq_self]

theorem createEventTable_of_creates (h : db.Creates d schema) :
    ∃ db', db.createEventTable d schema = .ok ((), db') := by
  unfold createEventTable
  cases ht : db.tables schema.table with
  | none => exact ⟨_, if_pos (h.resolve_left (by simp [ht]))⟩
  | some _ => exact ⟨_, rfl⟩

theorem addPositionColumn_ok (h : db.addPositionColumn = .ok ((), db')) :
    ∃ lastBlocks, db.progress = some (.unmigrated lastBlocks) ∧
      db' = db.setProgress (.migrated fun t => (lastBlocks t).map (⟨·, .null⟩)) := by
  unfold addPositionColumn at h
  split at h
  · exact nomatch h
  · exact nomatch h
  · rename_i lastBlocks hp
    exact ⟨lastBlocks, hp, (Prod.mk.inj (Except.ok.inj h)).2.symm⟩

theorem backfillPositionFromLastBlock_ok (h : db.backfillPositionFromLastBlock d = .ok ((), db')) :
    ∃ rows, db.progress = some (.migrated rows) ∧
      db' = db.setProgress (.migrated fun t => (rows t).map (·.backfilled d)) := by
  unfold backfillPositionFromLastBlock at h
  split at h
  · exact nomatch h
  · exact nomatch h
  · rename_i rows hp
    exact ⟨rows, hp, (Prod.mk.inj (Except.ok.inj h)).2.symm⟩

theorem selectPosition_ok {table : String} {cell : Option SqlValue}
    (h : db.selectPosition table = .ok (cell, db')) :
    ∃ rows, db.progress = some (.migrated rows) ∧ cell = (rows table).map ProgressRow.position ∧
      db' = db := by
  unfold selectPosition at h
  split at h
  · exact nomatch h
  · exact nomatch h
  · rename_i rows hp
    obtain ⟨hcell, hdb⟩ := Prod.mk.inj (Except.ok.inj h)
    exact ⟨rows, hp, hcell.symm, hdb.symm⟩

theorem insertStatement_ok {sortKey : Int} {rows : List Row}
    (h : db.insertStatement schema sortKey rows = .ok ((), db')) :
    ∃ table, db.tables schema.table = some table ∧ db' = db.setTable schema.table
      { table with rows := table.rows ++ rows.map (schema.stored sortKey) } := by
  unfold insertStatement at h
  split at h
  · exact nomatch h
  · rename_i table ht
    split at h
    · exact ⟨table, ht, (Prod.mk.inj (Except.ok.inj h)).2.symm⟩
    · exact nomatch h

theorem watermarkUpsert_ok {table : String} {lastBlock : Int} {position : String}
    (h : db.watermarkUpsert table lastBlock position = .ok ((), db')) :
    ∃ rows, db.progress = some (.migrated rows) ∧ db' = db.setProgress (.migrated
      (Function.update rows table (some ⟨.integer lastBlock, .text position⟩))) := by
  unfold watermarkUpsert at h
  split at h
  · exact nomatch h
  · exact nomatch h
  · rename_i rows hp
    exact ⟨rows, hp, (Prod.mk.inj (Except.ok.inj h)).2.symm⟩

end Database

/-! ### What the helpers do -/

open Database (progressRows eventTable HasPosition)

variable {schema : TableSchema}

theorem createTables_ok (h : (createTables d faults schema).exec s = (.ok (), s')) :
    s.db.Creates d schema ∧ s'.db.progressRows d = s.db.progressRows d ∧
      s'.db.tables = Function.update s.db.tables schema.table (some (s.db.eventTable schema)) := by
  obtain ⟨⟨⟩, s₁, hprogress, hevent⟩ := Proc.exec_bind_eq_ok h
  obtain ⟨db₁, h₁, rfl⟩ := execute_ok hprogress
  obtain ⟨db₂, h₂, rfl⟩ := execute_ok hevent
  obtain ⟨hrows, htables⟩ := Database.createProgressTable_ok (d := d) h₁
  obtain ⟨hcreates, hprogress', htables'⟩ := Database.createEventTable_ok h₂
  have htable : db₁.eventTable schema = s.db.eventTable schema := by
    unfold eventTable
    rw [htables]
  unfold Database.Creates at hcreates
  rw [htables] at hcreates
  refine ⟨hcreates, ?_, ?_⟩
  · rw [← hrows]
    unfold progressRows
    rw [hprogress']
  · rw [htables', ← htable, ← htables]

/-- The migration changes only how the progress rows are kept. -/
theorem migrateIfNeeded_ok {migrationChecked : Bool}
    (h : (migrateIfNeeded d faults migrationChecked).exec s = (.ok (), s')) :
    s'.db.tables = s.db.tables ∧ s'.db.progressRows d = s.db.progressRows d ∧
      (migrationChecked = false → s'.db.HasPosition) := by
  unfold migrateIfNeeded at h
  cases migrationChecked with
  | true =>
    obtain rfl := (Prod.mk.inj h).2
    exact ⟨rfl, rfl, fun h => nomatch h⟩
  | false =>
    simp only [Bool.false_eq_true, if_false] at h
    obtain ⟨⟨⟩, s₁, hbegin, hprobe⟩ := Proc.exec_bind_eq_ok h
    obtain rfl := savepointBegin_ok hbegin
    rw [Proc.exec_attempt_bind] at hprobe
    rcases hrun : (execute d faults .sql Database.probePositionColumn).exec
      { s with savepoint := some s.db, statements := s.statements + 1 } with ⟨e | ⟨⟩, s₂⟩ <;>
      rw [hrun] at hprobe
    · obtain rfl := execute_error hrun
      simp only at hprobe
      split at hprobe
      case h_1 heq => exact nomatch heq
      case h_3 => exact nomatch (Prod.mk.inj hprobe).1
      case h_2 =>
        -- the column is missing: back to the savepoint, then add it and fill it
        obtain ⟨⟨⟩, s₃, hrollback, hprobe⟩ := Proc.exec_bind_eq_ok hprobe
        obtain ⟨db, hdb, rfl⟩ := savepointRollback_ok hrollback
        obtain rfl : s.db = db := Option.some.inj hdb
        obtain ⟨⟨⟩, s₄, hrelease, hprobe⟩ := Proc.exec_bind_eq_ok hprobe
        obtain rfl := savepointRelease_ok hrelease
        obtain ⟨⟨⟩, s₅, hadd, hfill⟩ := Proc.exec_bind_eq_ok hprobe
        obtain ⟨db₁, h₁, rfl⟩ := execute_ok hadd
        obtain ⟨db₂, h₂, rfl⟩ := execute_ok hfill
        obtain ⟨lastBlocks, hp, rfl⟩ := Database.addPositionColumn_ok h₁
        obtain ⟨rows, hp', rfl⟩ := Database.backfillPositionFromLastBlock_ok h₂
        obtain rfl := ProgressTable.migrated.inj (Option.some.inj hp')
        refine ⟨rfl, ?_, fun _ => ⟨_, rfl⟩⟩
        funext t
        have hp : s.db.progress = some (.unmigrated lastBlocks) := hp
        simp only [progressRows, Database.setProgress, hp, Option.map_map]
        rfl
    · obtain ⟨db, hdb, rfl⟩ := execute_ok hrun
      have hhas : s.db.HasPosition ∧ db = s.db := by
        unfold Database.probePositionColumn at hdb
        split at hdb
        · exact nomatch hdb
        · exact nomatch hdb
        · rename_i rows hp
          exact ⟨⟨rows, hp⟩, (Prod.mk.inj (Except.ok.inj hdb)).2.symm⟩
      obtain ⟨hhas, rfl⟩ := hhas
      obtain rfl := savepointRelease_ok hprobe
      exact ⟨rfl, rfl, fun _ => hhas⟩

theorem checkRowShapes_ok {rows : List Row} (h : checkRowShapes schema rows = .ok ()) :
    ∀ row ∈ rows, row.cells.length = schema.columns.length := by
  induction rows with
  | nil => simp
  | cons row rows ih =>
    unfold checkRowShapes at h
    split at h
    · rename_i hlen
      exact List.forall_mem_cons.mpr ⟨hlen, ih h⟩
    · exact nomatch h

/-- The chunks are appended one after the other. -/
theorem insertChunks_ok {sortKey : Int} {pieces : List (List Row)}
    (h : (insertChunks d faults schema sortKey pieces).exec s = (.ok (), s')) {table : EventTable}
    (htable : s.db.tables schema.table = some table) :
    (∀ row ∈ pieces.flatten, row.cells.length = schema.columns.length) ∧
      s'.db.progress = s.db.progress ∧
      s'.db.tables = Function.update s.db.tables schema.table
        (some { table with rows := table.rows ++ pieces.flatten.map (schema.stored sortKey) }) := by
  induction pieces generalizing s table with
  | nil =>
    obtain rfl := (Prod.mk.inj h).2
    refine ⟨by simp, rfl, ?_⟩
    rw [List.flatten_nil, List.map_nil, List.append_nil, ← htable, Function.update_eq_self]
  | cons piece pieces ih =>
    obtain ⟨⟨⟩, s₁, hcheck, hpiece⟩ := Proc.exec_bind_eq_ok h
    obtain ⟨hshapes, rfl⟩ := ofExcept_ok hcheck
    obtain ⟨⟨⟩, s₂, hinsert, hrest⟩ := Proc.exec_bind_eq_ok hpiece
    obtain ⟨db, hdb, rfl⟩ := execute_ok hinsert
    obtain ⟨table', htable', rfl⟩ := Database.insertStatement_ok hdb
    obtain rfl := Option.some.inj (htable.symm.trans htable')
    obtain ⟨hlen, hprogress, htables⟩ := ih hrest (Function.update_self _ _ _)
    refine ⟨?_, hprogress, ?_⟩
    · rw [List.flatten_cons]
      exact List.forall_mem_append.mpr ⟨checkRowShapes_ok hshapes, hlen⟩
    · rw [htables]
      show Function.update (Function.update _ schema.table _) schema.table _ = _
      rw [Function.update_idem, List.flatten_cons, List.map_append, ← List.append_assoc]

theorem insertRows_ok {sortKey : Int} {rows : List Row}
    (h : (insertRows d faults schema sortKey rows).exec s = (.ok (), s')) {table : EventTable}
    (htable : s.db.tables schema.table = some table) :
    (∀ row ∈ rows, row.cells.length = schema.columns.length) ∧
      s'.db.progress = s.db.progress ∧
      s'.db.tables = Function.update s.db.tables schema.table
        (some { table with rows := table.rows ++ rows.map (schema.stored sortKey) }) := by
  have hrows := flatten_chunks (n := rowsPerChunk (1 + schema.columns.length))
    (Nat.lt_of_lt_of_le Nat.one_pos (Nat.le_max_right _ _)) rows
  have := insertChunks_ok h htable
  rwa [hrows] at this

theorem sortKeyToI64_ok {key : Nat} {i : Int} (h : sortKeyToI64 key = .ok i) :
    key ≤ i64Max ∧ i = key := by
  unfold sortKeyToI64 at h
  split at h
  · rename_i hle
    exact ⟨hle, (Except.ok.inj h).symm⟩
  · exact nomatch h

theorem lockedPosition_ok {P : Type} [PositionEncoding P] {table : String} {prev : Option P}
    (h : (lockedPosition d faults P table).exec s = (.ok prev, s')) :
    ∃ rows, s.db.progress = some (.migrated rows) ∧
      decodePosition P ((rows table).map ProgressRow.position) = .ok prev ∧
      s' = { s with statements := s.statements + 1 } := by
  obtain ⟨cell, s₂, hselect, hcell⟩ := Proc.exec_bind_eq_ok h
  obtain ⟨db, hdb, rfl⟩ := execute_ok hselect
  obtain ⟨rows, hp, rfl, rfl⟩ := Database.selectPosition_ok hdb
  obtain ⟨hdecode, rfl⟩ := ofExcept_ok hcell
  exact ⟨rows, hp, hdecode, rfl⟩

variable {P : Type} [Position P] [PositionEncoding P]

/-- What the watermark advance makes of the progress rows. -/
theorem advanceWatermark_ok {position : P}
    (h : (advanceWatermark d faults schema position).exec s = (.ok (), s')) :
    ∃ rows prev, s.db.progress = some (.migrated rows) ∧
      decodePosition P ((rows schema.table).map ProgressRow.position) = .ok prev ∧
      Position.sortKey (Position.advance prev position) ≤ i64Max ∧
      s'.db.tables = s.db.tables ∧
      s'.db.progress = some (.migrated (Function.update rows schema.table
        (some ⟨.integer (Position.sortKey (Position.advance prev position)),
          .text (PositionEncoding.encode (Position.advance prev position))⟩))) := by
  obtain ⟨prev, s₁, hprev, hadvance⟩ := Proc.exec_bind_eq_ok h
  obtain ⟨rows, hp, hdecode, rfl⟩ := lockedPosition_ok hprev
  obtain ⟨key, s₃, hfits, hupsert⟩ := Proc.exec_bind_eq_ok hadvance
  obtain ⟨hkey, rfl⟩ := ofExcept_ok hfits
  obtain ⟨hle, rfl⟩ := sortKeyToI64_ok hkey
  obtain ⟨db', hdb', rfl⟩ := execute_ok hupsert
  obtain ⟨rows', hp', rfl⟩ := Database.watermarkUpsert_ok hdb'
  have hsame : s.db.progress = some (.migrated rows') := hp'
  obtain rfl := ProgressTable.migrated.inj (Option.some.inj (hp.symm.trans hsame))
  exact ⟨rows, prev, hp, hdecode, hle, rfl, rfl⟩

/-! ### One attempt -/

/-- What a successful write of `rows` at `position` makes of a database: the rows are appended to
the table under the position's sort key, and the table's progress is the previous position
advanced. -/
structure Written (d : Dialect) (schema : TableSchema) (position : P) (rows : List Row)
    (before after : Database) : Prop where
  key : Position.sortKey position ≤ i64Max
  shapes : ∀ row ∈ rows, row.cells.length = schema.columns.length
  tables : after.tables = Function.update before.tables schema.table
    (some { before.eventTable schema with
      rows := (before.eventTable schema).rows ++
        rows.map (schema.stored (Position.sortKey position)) })
  /-- The other rows of the progress table are as the migration leaves them. -/
  progress : ∃ prev, decodePosition P
      ((before.progressRows d schema.table).map ProgressRow.position) = .ok prev ∧
    Position.sortKey (Position.advance prev position) ≤ i64Max ∧
    after.progress = some (.migrated (Function.update (before.progressRows d) schema.table
      (some ⟨.integer (Position.sortKey (Position.advance prev position)),
        .text (PositionEncoding.encode (Position.advance prev position))⟩)))

theorem transaction_ok {migrationChecked : Bool} {position : P} {rows : List Row}
    (h : (transaction d faults migrationChecked schema position rows).exec s = (.ok (), s')) :
    Written d schema position rows s.db s'.db := by
  obtain ⟨⟨⟩, s₁, hbegin, h⟩ := Proc.exec_bind_eq_ok h
  obtain rfl := control_ok hbegin
  obtain ⟨⟨⟩, s₂, hcreate, h⟩ := Proc.exec_bind_eq_ok h
  obtain ⟨-, hrows₂, htables₂⟩ := createTables_ok hcreate
  obtain ⟨⟨⟩, s₃, hmigrate, h⟩ := Proc.exec_bind_eq_ok h
  obtain ⟨htables₃, hrows₃, -⟩ := migrateIfNeeded_ok hmigrate
  obtain ⟨key, s₄, hkey, h⟩ := Proc.exec_bind_eq_ok h
  obtain ⟨hfits, rfl⟩ := ofExcept_ok hkey
  obtain ⟨hle, rfl⟩ := sortKeyToI64_ok hfits
  obtain ⟨⟨⟩, s₅, hinsert, h⟩ := Proc.exec_bind_eq_ok h
  have htable : s₄.db.tables schema.table = some (s.db.eventTable schema) := by
    rw [htables₃, htables₂, Function.update_self]
  obtain ⟨hlen, hprogress₅, htables₅⟩ := insertRows_ok hinsert htable
  obtain ⟨⟨⟩, s₆, hadvance, hcommit⟩ := Proc.exec_bind_eq_ok h
  obtain ⟨rows', prev, hp, hprev, hnext, htables₆, hprogress₆⟩ := advanceWatermark_ok hadvance
  obtain rfl := control_ok hcommit
  have hrows' : rows' = s.db.progressRows d := by
    rw [hprogress₅] at hp
    rw [← Database.progressRows_of_migrated (d := d) hp, hrows₃, hrows₂]
  subst hrows'
  refine ⟨hle, hlen, ?_, prev, hprev, hnext, hprogress₆⟩
  show s₆.db.tables = _
  rw [htables₆, htables₅, htables₃, htables₂, Function.update_idem]

/-- A successful attempt writes; a failed one leaves the store as it was. -/
theorem writeOnce_cases (st : SqlStore) (schema : TableSchema) (position : P) (rows : List Row) :
    (∃ db, st.writeOnce d faults schema position rows = (.ok (), ⟨db, true⟩) ∧
        Written d schema position rows st.db db) ∨
      ∃ e, st.writeOnce d faults schema position rows = (.error e, st) := by
  unfold SqlStore.writeOnce
  rcases hrun : (transaction d faults st.migrationChecked schema position rows).exec
    ⟨st.db, none, false, 0⟩ with ⟨e | ⟨⟩, s⟩
  · exact .inr ⟨e, rfl⟩
  · exact .inl ⟨s.db, rfl, transaction_ok hrun⟩

/-- No attempt creates a table with a column that the backend has already. -/
theorem creates_of_writeOnce {st st' : SqlStore} {position : P} {rows : List Row}
    (h : st.writeOnce d faults schema position rows = (.ok (), st')) : st.db.Creates d schema := by
  unfold SqlStore.writeOnce at h
  rcases hrun : (transaction d faults st.migrationChecked schema position rows).exec
    ⟨st.db, none, false, 0⟩ with ⟨e | ⟨⟩, s⟩
  · rw [hrun] at h
    exact nomatch (Prod.mk.inj h).1
  · obtain ⟨⟨⟩, s₁, hbegin, hrest⟩ := Proc.exec_bind_eq_ok hrun
    obtain rfl := control_ok hbegin
    obtain ⟨⟨⟩, s₂, hcreate, -⟩ := Proc.exec_bind_eq_ok hrest
    exact (createTables_ok hcreate).1

/-! ### A write -/

/-- The first attempt lost a duplicate-object race. -/
def LostRace (d : Dialect) (faults : Nat → Nat → Option Fault) (st : SqlStore)
    (schema : TableSchema)
    (position : P) (rows : List Row) : Prop :=
  ∃ e, (st.writeOnce d (faults 0) schema position rows).1 = .error (.ddlRace e)

/-- What holds of the database that the last attempt starts from: the store's own, or the one that
the winner of the race has left.  That attempt fails and changes nothing, or writes everything. -/
theorem write_rule (d : Dialect) (faults : Nat → Nat → Option Fault) (race : Database → Database)
    (st : SqlStore) (schema : TableSchema) (position : P) (rows : List Row) {I : Database → Prop}
    (hstay : ¬ LostRace d faults st schema position rows → I st.db)
    (hlost : LostRace d faults st schema position rows → I (race st.db)) :
    ∃ db, I db ∧ ((∃ e, st.write d faults race schema position rows
        = (.error e, ⟨db, st.migrationChecked⟩)) ∨
      ∃ after, st.write d faults race schema position rows = (.ok (), ⟨after, true⟩) ∧
        Written d schema position rows db after) := by
  unfold LostRace at hstay hlost
  unfold SqlStore.write
  rcases writeOnce_cases (d := d) st schema position rows with
    ⟨after, h, hwritten⟩ | ⟨e, h⟩
  · rw [h] at hstay ⊢
    refine ⟨st.db, hstay ?_, .inr ⟨after, rfl, hwritten⟩⟩
    rintro ⟨e, he⟩
    exact nomatch he
  · rw [h] at hstay hlost ⊢
    cases e with
    | ddlRace e =>
      refine ⟨race st.db, hlost ⟨e, rfl⟩, ?_⟩
      -- the winner of the race has created the tables, and the write is tried once more
      rcases writeOnce_cases (d := d) { st with db := race st.db } schema
        position rows with ⟨after, h', hwritten⟩ | ⟨e', h'⟩
      · exact .inr ⟨after, h', hwritten⟩
      · exact .inl ⟨e', h'⟩
    | sql e =>
      refine ⟨st.db, hstay ?_, .inl ⟨.sql e, rfl⟩⟩
      rintro ⟨e', he⟩
      exact nomatch he
    | message e =>
      refine ⟨st.db, hstay ?_, .inl ⟨.message e, rfl⟩⟩
      rintro ⟨e', he⟩
      exact nomatch he

/-- A write is all or nothing: whatever fails, an error leaves every table, the progress rows and
the migration check as they are; a success adds exactly the rows and sets the table's progress; and
after a lost race this holds of the database that the winner has left. -/
theorem write_atomic (d : Dialect) (faults : Nat → Nat → Option Fault) (race : Database → Database)
    (st : SqlStore) (schema : TableSchema) (position : P) (rows : List Row) :
    ∃ db, (¬ LostRace d faults st schema position rows → db = st.db) ∧
      (LostRace d faults st schema position rows → db = race st.db) ∧
      ((∃ e, st.write d faults race schema position rows
          = (.error e, ⟨db, st.migrationChecked⟩)) ∨
        ∃ after, st.write d faults race schema position rows = (.ok (), ⟨after, true⟩) ∧
          Written d schema position rows db after) := by
  obtain ⟨db, ⟨hstay, hlost⟩, hresult⟩ := write_rule d faults race st schema position rows
    (I := fun db => (¬ LostRace d faults st schema position rows → db = st.db) ∧
      (LostRace d faults st schema position rows → db = race st.db))
    (fun h => ⟨fun _ => rfl, fun h' => absurd h' h⟩)
    (fun h => ⟨fun h' => absurd h h', fun _ => rfl⟩)
  exact ⟨db, hstay, hlost, hresult⟩

end ArtemisLight
