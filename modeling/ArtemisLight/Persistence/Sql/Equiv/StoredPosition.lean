import ArtemisLight.Persistence.Sql.Equiv.Write

/-!
## The read path and the write path

`storedPosition` and `lockedPosition` read the same two columns, and do not agree on a progress row
whose position is `NULL`: the read falls back to `last_block`, the write takes the table for a new
one. The binary of before the migration writes such rows.
-/

namespace ArtemisLight

variable {d : Dialect} {db db' : Database} {table : String}

namespace Database

/-- The `last_block` cell of a table, if it has a progress row. -/
def lastBlock (db : Database) (table : String) : Option SqlValue :=
  match db.selectLastBlock table with
  | .ok (cell, _) => cell
  | .error _ => none

/-- One successful write of block positions commits, to any table and by any store instance. -/
def Commits (d : Dialect) (db db' : Database) : Prop :=
  ∃ faults checked schema, ∃ (position : BlockPosition) (rows : List Row),
    SqlStore.writeOnce d faults ⟨db, checked⟩ schema position rows = (.ok (), ⟨db', true⟩)

/-- The second database is committed by some number of successful writes to the first. -/
inductive CommitsTo (d : Dialect) (db : Database) : Database → Prop where
  | refl : CommitsTo d db db
  | tail {mid after : Database} : CommitsTo d db mid → Commits d mid after → CommitsTo d db after

end Database

open Database (progressRows Commits CommitsTo)

/-- Every write to the table that gets as far as reading the previous position reads the stored
one. -/
def FoldsStored (P : Type) [PositionEncoding P] (d : Dialect) (db : Database) (table : String) :
    Prop :=
  ∀ faults checked (schema : TableSchema) sortKey rows stored prev, ∀ s s' : Session,
    schema.table = table →
    (do createTables d faults schema
        migrateIfNeeded d faults checked
        insertRows d faults schema sortKey rows).exec ⟨db, none, false, 0⟩ = (.ok (), s) →
    (lockedPosition d faults P table).exec s = (.ok prev, s') →
    storedPosition P db table = .ok stored → prev = stored

/-- The sort key that is stored is the retained `last_block`. -/
def RetainsKey (db : Database) (table : String) (stored : Option BlockPosition) : Prop :=
  db.lastBlock table = stored.map fun p => .integer p.block

/-- From every database that successful writes lead to, a further one leaves a stored position that
is not below, and in all of them the key is the retained one. -/
def NeverRegresses (d : Dialect) (db : Database) (table : String) : Prop :=
  ∀ mid, CommitsTo d db mid → ∃ stored, storedPosition BlockPosition mid table = .ok stored ∧
    RetainsKey mid table stored ∧
    ∀ after, Commits d mid after → ∃ stored',
      storedPosition BlockPosition after table = .ok stored' ∧
      ∀ p ∈ stored, ∃ p' ∈ stored', p.block ≤ p'.block

/-- Every migrated progress row of the table has an integer for its `last_block`, and the text of
that block for its position. -/
def Consistent (db : Database) (table : String) : Prop :=
  ∀ rows row, db.progress = some (.migrated rows) → rows table = some row →
    ∃ p text, row = ⟨.integer p.block, .text text⟩ ∧
      (PositionEncoding.decode text : Except Error BlockPosition) = .ok p

/-! ### What a progress row represents -/

/-- The progress row of the table, once migrated, is that of a stored position. -/
def Represents (d : Dialect) (db : Database) (table : String) : Option BlockPosition → Prop
  | none => db.progressRows d table = none
  | some p => ∃ text, db.progressRows d table = some ⟨.integer p.block, .text text⟩ ∧
      (PositionEncoding.decode text : Except Error BlockPosition) = .ok p

/-- What a fallback that returns has read. -/
theorem resumeFromLastBlock_ok {P : Type} [PositionEncoding P] {cell : SqlValue} {later : Database}
    {stored : Option P} (hcell : db.selectLastBlock table = .ok (some cell, later))
    (h : resumeFromLastBlock P db table = .ok stored) :
    ∃ i p, cell = .integer i ∧ stored = some p ∧ PositionEncoding.decode (toString i) = .ok p := by
  unfold resumeFromLastBlock at h
  rw [hcell] at h
  simp only at h
  cases cell with
  | integer i =>
    simp only [integerCell] at h
    cases hdecode : (PositionEncoding.decode (toString i) : Except Error P) with
    | error e =>
      rw [hdecode] at h
      exact nomatch h
    | ok p =>
      rw [hdecode] at h
      exact ⟨i, p, rfl, (Except.ok.inj h).symm, hdecode⟩
  | real bits => exact nomatch h
  | text s => exact nomatch h
  | blob bytes => exact nomatch h
  | null => exact nomatch h

/-- The text of a block, as both the cast and the fallback produce it. -/
theorem decode_toString_block {p : BlockPosition} (h : p.block ≤ u64Max) :
    (PositionEncoding.decode (toString (p.block : Int)) : Except Error BlockPosition) = .ok p :=
  BlockPosition.decode_encode h

theorem mapError_decode {text : String} {p : BlockPosition}
    (h : (PositionEncoding.decode text : Except Error BlockPosition) = .ok p) :
    Except.mapError WriteError.message (some <$> PositionEncoding.decode text) = .ok (some p) := by
  rw [h]
  rfl

theorem represents_of_stored {stored : Option BlockPosition}
    (h : storedPosition BlockPosition db table = .ok stored) (hc : Consistent db table) :
    ∃ stored, Represents d db table stored := by
  cases hp : db.progress with
  | none => exact ⟨none, by simp only [Represents, Database.progressRows, hp]⟩
  | some progress =>
    cases progress with
    | migrated rows =>
      cases hrow : rows table with
      | none => exact ⟨none, by simp only [Represents, Database.progressRows, hp, hrow]⟩
      | some row =>
        obtain ⟨p, text, rfl, hdecode⟩ := hc rows row hp hrow
        exact ⟨some p, text, by simp only [Database.progressRows, hp, hrow], hdecode⟩
    | unmigrated lastBlocks =>
      cases hcell : lastBlocks table with
      | none => exact ⟨none, by simp only [Represents, Database.progressRows, hp, hcell,
          Option.map_none]⟩
      | some cell =>
        have hread : resumeFromLastBlock BlockPosition db table = .ok stored := by
          simpa only [storedPosition, storedPositionAcross, Database.selectPosition, hp] using h
        have hselect : db.selectLastBlock table = .ok (some cell, db) := by
          simp only [Database.selectLastBlock, hp, hcell]
        obtain ⟨i, p, rfl, -, hdecode⟩ := resumeFromLastBlock_ok hselect hread
        obtain rfl := BlockPosition.decode_toString hdecode
        refine ⟨some p, toString p.block, ?_, hdecode⟩
        simp only [Database.progressRows, hp, hcell, Option.map_some, ProgressRow.backfilled,
          if_true, d.castText_integer]

/-- Before the migration and after it, `last_block` is the block of the represented position. -/
theorem Represents.retainsKey {stored : Option BlockPosition} (h : Represents d db table stored) :
    RetainsKey db table stored := by
  unfold RetainsKey Database.lastBlock Database.selectLastBlock
  unfold Represents Database.progressRows at h
  cases hp : db.progress with
  | none =>
    rw [hp] at h
    cases stored with
    | none => rfl
    | some p =>
      obtain ⟨text, hrow, -⟩ := h
      exact nomatch hrow
  | some progress =>
    rw [hp] at h
    cases progress with
    | migrated rows =>
      cases stored with
      | none =>
        have hnone : rows table = none := h
        simp only [hnone, Option.map_none]
      | some p =>
        obtain ⟨text, hrow, -⟩ := h
        have hsome : rows table = some ⟨.integer p.block, .text text⟩ := hrow
        simp only [hsome, Option.map_some]
    | unmigrated lastBlocks =>
      cases stored with
      | none =>
        have hnone : lastBlocks table = none := Option.map_eq_none_iff.mp h
        simp only [hnone, Option.map_none]
      | some p =>
        obtain ⟨text, hrow, -⟩ := h
        obtain ⟨cell, hcell, heq⟩ := Option.map_eq_some_iff.mp hrow
        rw [ProgressRow.backfilled, if_pos rfl] at heq
        have hlast : cell = .integer p.block := congrArg ProgressRow.lastBlock heq
        simp only [hcell, hlast, Option.map_some]

/-- The fallback reads the retained block. -/
theorem RetainsKey.resume {stored : Option BlockPosition} (h : RetainsKey db table stored)
    (hle : ∀ p ∈ stored, p.block ≤ u64Max) :
    resumeFromLastBlock BlockPosition db table = .ok stored := by
  unfold RetainsKey Database.lastBlock at h
  unfold resumeFromLastBlock
  cases hselect : db.selectLastBlock table with
  | error e =>
    rw [hselect] at h
    cases stored with
    | some p => exact nomatch h
    | none =>
      have hundefined : e = .undefinedTable := by
        unfold Database.selectLastBlock at hselect
        split at hselect
        · exact (Except.error.inj hselect).symm
        · exact nomatch hselect
        · exact nomatch hselect
      rw [hundefined]
  | ok result =>
    obtain ⟨cell, db'⟩ := result
    rw [hselect] at h
    obtain rfl : cell = _ := h
    cases stored with
    | none => rfl
    | some p => exact mapError_decode (decode_toString_block (hle p rfl))

theorem Represents.resume {stored : Option BlockPosition} (h : Represents d db table stored) :
    resumeFromLastBlock BlockPosition db table = .ok stored := by
  refine h.retainsKey.resume ?_
  rintro p rfl
  obtain ⟨text, -, hdecode⟩ := h
  exact BlockPosition.decode_le hdecode

/-- The read path reads what the row represents, also when its fallback comes later. -/
theorem Represents.across {later : Database} {stored : Option BlockPosition}
    (h : Represents d db table stored) (hlater : Represents d later table stored) :
    storedPositionAcross BlockPosition db later table = .ok stored := by
  have hresume := hlater.resume
  unfold storedPositionAcross Database.selectPosition
  unfold Represents Database.progressRows at h
  cases hp : db.progress with
  | none =>
    rw [hp] at h
    cases stored with
    | none => rfl
    | some p =>
      obtain ⟨text, hrow, -⟩ := h
      exact nomatch hrow
  | some progress =>
    rw [hp] at h
    cases progress with
    | unmigrated lastBlocks => exact hresume
    | migrated rows =>
      cases stored with
      | none =>
        have hnone : rows table = none := h
        simp only [hnone, Option.map_none]
      | some p =>
        obtain ⟨text, hrow, hdecode⟩ := h
        have hsome : rows table = some ⟨.integer p.block, .text text⟩ := hrow
        simp only [hsome, Option.map_some, textCell]
        exact mapError_decode hdecode

theorem Represents.read {stored : Option BlockPosition} (h : Represents d db table stored) :
    storedPosition BlockPosition db table = .ok stored :=
  h.across h

/-- So does the write path. -/
theorem Represents.locked {stored : Option BlockPosition} (h : Represents d db table stored) :
    decodePosition BlockPosition ((db.progressRows d table).map ProgressRow.position)
      = .ok stored := by
  cases stored with
  | none =>
    have hnone : db.progressRows d table = none := h
    rw [hnone]
    rfl
  | some p =>
    obtain ⟨text, hrow, hdecode⟩ := h
    rw [hrow]
    simp only [Option.map_some, decodePosition, textCell, hdecode]
    rfl

/-! ### What a write makes of it -/

section Written

variable {schema : TableSchema} {rows : List Row} {stored : Option BlockPosition}

theorem Written.represents_other {P : Type} [Position P] [PositionEncoding P] {position : P}
    (hw : Written d schema position rows db db') (hne : table ≠ schema.table)
    (h : Represents d db table stored) : Represents d db' table stored := by
  obtain ⟨prev, -, -, hprogress⟩ := hw.progress
  have hsame : db'.progressRows d table = db.progressRows d table := by
    rw [Database.progressRows_of_migrated hprogress, Function.update_of_ne hne]
  cases stored with
  | none => exact hsame.trans h
  | some p =>
    obtain ⟨text, hrow, hdecode⟩ := h
    exact ⟨text, hsame.trans hrow, hdecode⟩

theorem Written.represents {position : BlockPosition}
    (hw : Written d schema position rows db db') (h : Represents d db schema.table stored) :
    Represents d db' schema.table (some (Position.advance stored position)) := by
  obtain ⟨prev, hprev, hfits, hprogress⟩ := hw.progress
  obtain rfl : stored = prev := Except.ok.inj (h.locked.symm.trans hprev)
  refine ⟨PositionEncoding.encode (Position.advance stored position), ?_, ?_⟩
  · rw [Database.progressRows_of_migrated hprogress, Function.update_self]
    rfl
  · apply BlockPosition.decode_encode
    have hmax : i64Max ≤ u64Max := by decide
    exact Nat.le_trans hfits hmax

end Written

theorem BlockPosition.le_advance (stored : Option BlockPosition) (position : BlockPosition) :
    ∀ p ∈ stored, p.block ≤ (Position.advance stored position).block := by
  rintro p rfl
  exact Nat.le_max_left _ _

/-- A successful attempt commits what it has written. -/
theorem writeOnce_written {P : Type} [Position P] [PositionEncoding P]
    {faults : Nat → Option Fault} {checked flag : Bool} {schema : TableSchema} {position : P}
    {rows : List Row}
    (h : SqlStore.writeOnce d faults ⟨db, checked⟩ schema position rows = (.ok (), ⟨db', flag⟩)) :
    Written d schema position rows db db' := by
  rcases writeOnce_cases (d := d) ⟨db, checked⟩ schema position rows with
    ⟨after, hafter, hwritten⟩ | ⟨e, he⟩
  · rw [h] at hafter
    obtain rfl : db' = after := congrArg SqlStore.db (Prod.mk.inj hafter).2
    exact hwritten
  · rw [h] at he
    exact nomatch (Prod.mk.inj he).1

/-- A commit moves no stored position back. -/
theorem Database.Commits.represents {stored : Option BlockPosition} (hw : Commits d db db')
    (h : Represents d db table stored) :
    ∃ stored', Represents d db' table stored' ∧ ∀ p ∈ stored, ∃ p' ∈ stored',
      p.block ≤ p'.block := by
  obtain ⟨faults, checked, schema, position, rows, hok⟩ := hw
  have hwritten := writeOnce_written hok
  by_cases htable : table = schema.table
  · subst htable
    exact ⟨_, hwritten.represents h, fun p hp =>
      ⟨_, rfl, BlockPosition.le_advance stored position p hp⟩⟩
  · exact ⟨stored, hwritten.represents_other htable h, fun p hp => ⟨p, hp, Nat.le_refl _⟩⟩

theorem Database.CommitsTo.represents {stored : Option BlockPosition} (hrun : CommitsTo d db db')
    (h : Represents d db table stored) : ∃ stored', Represents d db' table stored' := by
  induction hrun with
  | refl => exact ⟨stored, h⟩
  | tail _ hlast ih =>
    obtain ⟨mid, hmid⟩ := ih
    obtain ⟨after, hafter, -⟩ := hlast.represents hmid
    exact ⟨after, hafter⟩

/-! ### Agreement -/

/-- Before it reads the previous position, a write changes only how the progress rows are kept. -/
theorem prepared_progressRows {faults : Nat → Option Fault} {checked : Bool} {schema : TableSchema}
    {sortKey : Int} {rows : List Row} {s s' : Session}
    (h : (do createTables d faults schema
             migrateIfNeeded d faults checked
             insertRows d faults schema sortKey rows).exec s = (.ok (), s')) :
    s'.db.progressRows d = s.db.progressRows d := by
  obtain ⟨⟨⟩, s₁, hcreate, h⟩ := Proc.exec_bind_eq_ok h
  obtain ⟨-, hrows₁, htables₁⟩ := createTables_ok hcreate
  obtain ⟨⟨⟩, s₂, hmigrate, hinsert⟩ := Proc.exec_bind_eq_ok h
  obtain ⟨htables₂, hrows₂, -⟩ := migrateIfNeeded_ok hmigrate
  have htable : s₂.db.tables schema.table = some (s.db.eventTable schema) := by
    rw [htables₂, htables₁, Function.update_self]
  obtain ⟨-, hprogress, -⟩ := insertRows_ok hinsert htable
  rw [← hrows₁, ← hrows₂]
  unfold progressRows
  rw [hprogress]

/-- Where no position is `NULL`, the two paths agree, whatever the positions are. -/
theorem foldsStored_of_represents {P : Type} [PositionEncoding P] {stored : Option BlockPosition}
    (h : Represents d db table stored) : FoldsStored P d db table := by
  rintro faults checked schema sortKey rows read prev s s' rfl hprepared hlocked hread
  obtain ⟨rows', hp', hprev, -⟩ := lockedPosition_ok hlocked
  obtain rfl : rows' = db.progressRows d := by
    rw [← Database.progressRows_of_migrated (d := d) hp', prepared_progressRows hprepared]
  suffices hsame : decodePosition P ((db.progressRows d schema.table).map ProgressRow.position)
      = .ok read from Except.ok.inj (hprev.symm.trans hsame)
  unfold storedPosition storedPositionAcross Database.selectPosition at hread
  cases hp : db.progress with
  | none =>
    rw [hp] at hread
    rw [progressRows, hp]
    exact hread
  | some progress =>
    rw [hp] at hread
    cases progress with
    | migrated rows' =>
      rw [Database.progressRows_of_migrated hp]
      cases hrow : rows' schema.table with
      | none =>
        simp only [hrow] at hread
        exact hread
      | some row =>
        -- the cell is a text, which both paths decode
        cases stored with
        | none =>
          have hnone : rows' schema.table = none := by
            simpa only [Represents, progressRows, hp] using h
          exact absurd (hrow.symm.trans hnone) (by simp)
        | some p =>
          obtain ⟨text, hsome, -⟩ := h
          rw [Database.progressRows_of_migrated hp, hrow, Option.some.injEq] at hsome
          subst hsome
          simp only [hrow] at hread
          exact hread
    | unmigrated lastBlocks =>
      cases hcell : lastBlocks schema.table with
      | none =>
        simp only [resumeFromLastBlock, Database.selectLastBlock, hp, hcell] at hread
        rw [progressRows, hp]
        simp only [hcell]
        exact hread
      | some cell =>
        -- the fallback decodes the text that the migration will store
        have hselect : db.selectLastBlock schema.table = .ok (some cell, db) := by
          simp only [Database.selectLastBlock, hp, hcell]
        obtain ⟨i, p, rfl, rfl, hdecode⟩ := resumeFromLastBlock_ok hselect hread
        obtain ⟨n, rfl⟩ : ∃ n : Nat, i = n := by
          rw [Represents.eq_def] at h
          simp only [progressRows, hp, hcell, Option.map_some] at h
          split at h
          · exact absurd h (by simp)
          · rename_i q
            obtain ⟨text, hrow, -⟩ := h
            rw [Option.some.injEq, ProgressRow.backfilled, if_pos rfl] at hrow
            exact ⟨q.block, SqlValue.integer.inj (congrArg ProgressRow.lastBlock hrow)⟩
        have hcast : (ProgressRow.backfilled d ⟨.integer n, .null⟩).position
            = .text (toString n) := by
          rw [ProgressRow.backfilled, if_pos rfl]
          exact d.castText_integer n
        rw [progressRows, hp]
        simp only [hcell, Option.map_some, hcast, decodePosition, textCell]
        have hdecode : PositionEncoding.decode (toString n) = Except.ok p := hdecode
        rw [hdecode]
        rfl

/-- Without faults, a write reads the previous position of a migrated table. -/
theorem locked_run {P : Type} [PositionEncoding P] {rows : String → Option ProgressRow}
    {prev : Option P} (hp : db.progress = some (.migrated rows))
    (hprev : decodePosition P ((rows table).map ProgressRow.position) = .ok prev) :
    ∃ s s', (do createTables d (fun _ => none) ⟨table, []⟩
                migrateIfNeeded d (fun _ => none) true
                insertRows d (fun _ => none) ⟨table, []⟩ 0 []).exec ⟨db, none, false, 0⟩
                  = (.ok (), s) ∧
      (lockedPosition d (fun _ => none) P table).exec s = (.ok prev, s') := by
  have hprogress : db.createProgressTable = .ok ((), db) := by
    unfold Database.createProgressTable
    rw [hp]
  -- the implicit column alone is never refused
  have hcreates : db.Creates d ⟨table, []⟩ :=
    Or.inr ⟨List.nodup_singleton _, fun name hm => List.mem_singleton.mp hm ▸
      d.identifiers.block_free⟩
  obtain ⟨db', hevent⟩ := Database.createEventTable_of_creates hcreates
  have hp' : db'.progress = some (.migrated rows) :=
    (Database.createEventTable_ok hevent).2.1.trans hp
  have hselect : db'.selectPosition table
      = .ok ((rows table).map ProgressRow.position, db') := by
    unfold Database.selectPosition
    rw [hp']
  refine ⟨⟨db', none, false, 2⟩, ⟨db', none, false, 3⟩, ?_, ?_⟩
  · have hcreate : (createTables d (fun _ => none) ⟨table, []⟩).exec ⟨db, none, false, 0⟩
        = (.ok (), ⟨db', none, false, 2⟩) :=
      (Proc.exec_bind_ok (execute_run rfl hprogress)).trans (execute_run rfl hevent)
    rw [Proc.exec_bind_ok hcreate]
    rfl
  · refine (Proc.exec_bind_ok (execute_run rfl hselect)).trans ?_
    rw [hprev]
    rfl

/-- On every table whose stored position can be read: each write folds onto the stored position,
which therefore never moves back and keeps to `last_block`, just if the progress row is
consistent. -/
theorem stored_position_agrees_iff (d : Dialect) {db : Database} {table : String}
    {stored : Option BlockPosition} (h : storedPosition BlockPosition db table = .ok stored) :
    ((∀ (P : Type) [PositionEncoding P], FoldsStored P d db table) ∧ NeverRegresses d db table)
      ↔ Consistent db table := by
  constructor
  · rintro ⟨hfolds, hkeeps⟩ rows ⟨lastBlock, position⟩ hp hrow
    have hread := h
    unfold storedPosition storedPositionAcross Database.selectPosition at hread
    simp only [hp, hrow, Option.map_some] at hread
    cases position with
    | text text =>
      simp only [textCell] at hread
      cases hdecode : (PositionEncoding.decode text : Except Error BlockPosition) with
      | error e =>
        rw [hdecode] at hread
        exact nomatch hread
      | ok p =>
        -- nothing is written yet: the block that is read has to be the retained one
        rw [hdecode] at hread
        obtain rfl : some p = stored := Except.ok.inj hread
        obtain ⟨stored', hstored', hretains, -⟩ := hkeeps db .refl
        obtain rfl := Except.ok.inj (h.symm.trans hstored')
        have hlast : lastBlock = .integer p.block := by
          simpa [RetainsKey, Database.lastBlock, Database.selectLastBlock, hp, hrow] using hretains
        exact ⟨p, text, by rw [hlast], hdecode⟩
    | null =>
      -- the fallback reads a block, and a write reads none
      have hselect : db.selectLastBlock table = .ok (some lastBlock, db) := by
        simp only [Database.selectLastBlock, hp, hrow, Option.map_some]
      obtain ⟨i, p, -, rfl, -⟩ := resumeFromLastBlock_ok hselect hread
      have hnone : decodePosition BlockPosition ((rows table).map ProgressRow.position)
          = .ok none := by
        rw [hrow]
        rfl
      obtain ⟨s, s', hprepared, hlocked⟩ := locked_run (d := d) hp hnone
      exact nomatch hfolds BlockPosition _ _ _ _ _ _ _ _ _ rfl hprepared hlocked h
    | integer i => exact nomatch hread
    | real bits => exact nomatch hread
    | blob bytes => exact nomatch hread
  · intro hc
    obtain ⟨stored, hstored⟩ := represents_of_stored (d := d) h hc
    refine ⟨fun P _ => foldsStored_of_represents hstored, fun mid hrun => ?_⟩
    obtain ⟨p, hp⟩ := hrun.represents hstored
    refine ⟨p, hp.read, hp.retainsKey, fun after hcommit => ?_⟩
    obtain ⟨p', hp', hle⟩ := hcommit.represents hp
    exact ⟨p', hp'.read, hle⟩

/-- An archive of before the migration. -/
def oldArchive : Database :=
  ⟨some (.unmigrated fun t => if t = "transfers" then some (.integer 9) else none), fun _ => none⟩

/-- The two paths agree on an old archive. -/
theorem stored_position_agrees_before_migration :
    ((∀ (P : Type) [PositionEncoding P], FoldsStored P .integersOnly oldArchive "transfers") ∧
      NeverRegresses .integersOnly oldArchive "transfers") ↔ Consistent oldArchive "transfers" :=
  stored_position_agrees_iff .integersOnly
    (mapError_decode (decode_toString_block (p := ⟨9⟩) (by decide)))

/-- An archive that an old binary wrote to after the migration. -/
def oldBinaryWrote : Database :=
  ⟨some (.migrated fun t => if t = "transfers" then some ⟨.integer 9, .null⟩ else none), fun _ =>
    none⟩

/-- The archive is stored up to block `9`, and a write of block `5` moves it back to `5`. -/
theorem null_position_regresses :
    storedPosition BlockPosition oldBinaryWrote "transfers" = .ok (some ⟨9⟩) ∧
      (∃ after, Commits .integersOnly oldBinaryWrote after ∧
        storedPosition BlockPosition after "transfers" = .ok (some ⟨5⟩)) ∧
      ¬ FoldsStored BlockPosition .integersOnly oldBinaryWrote "transfers" ∧
      ¬ NeverRegresses .integersOnly oldBinaryWrote "transfers" := by
  have hstored : storedPosition BlockPosition oldBinaryWrote "transfers" = .ok (some ⟨9⟩) :=
    mapError_decode (decode_toString_block (p := ⟨9⟩) (by decide))
  obtain ⟨after, hcommit, hafter⟩ : ∃ after, Commits .integersOnly oldBinaryWrote after ∧
      storedPosition BlockPosition after "transfers" = .ok (some ⟨5⟩) := by
    refine ⟨_, ⟨fun _ => none, true, ⟨"transfers", []⟩, ⟨5⟩, [], rfl⟩, ?_⟩
    exact mapError_decode (BlockPosition.decode_encode (p := ⟨5⟩) (by decide))
  refine ⟨hstored, ⟨after, hcommit, hafter⟩, fun hfolds => ?_, fun hkeeps => ?_⟩
  · have hrun : ∃ s s', _ ∧ (lockedPosition _ _ BlockPosition "transfers").exec s
      = (.ok none, s') :=
      locked_run (d := .integersOnly) (by rfl : oldBinaryWrote.progress = _) rfl
    obtain ⟨s, s', hprepared, hlocked⟩ := hrun
    exact nomatch hfolds _ _ _ _ _ _ _ _ _ rfl hprepared hlocked hstored
  · obtain ⟨stored, hread, -, hnext⟩ := hkeeps _ .refl
    obtain rfl := Except.ok.inj (hstored.symm.trans hread)
    obtain ⟨stored', hread', hle⟩ := hnext after hcommit
    obtain rfl := Except.ok.inj (hafter.symm.trans hread')
    obtain ⟨p', hp', hle⟩ := hle ⟨9⟩ rfl
    obtain rfl := Option.some.inj hp'
    exact absurd hle (by decide)

end ArtemisLight
