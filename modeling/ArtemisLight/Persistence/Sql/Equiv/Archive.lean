import ArtemisLight.Persistence.Equiv.Naming
import ArtemisLight.Persistence.Equiv.Restart
import ArtemisLight.Persistence.Sql.Equiv.Replay
import ArtemisLight.Persistence.Sql.Equiv.StoredPosition

/-!
# The SQL store as an archive

A `SqlArchive` is a SQL store that one process writes the rows of records to.  Whatever its
statements fail on, it is `Archival`, so that what holds of the archives of any store holds of its
tables.

`Database.archive` reads an archive off a table, and `Database.Kept` is what every write preserves.
`Written.archive` and `Written.kept` are about a write that succeeds, `SqlArchive.write_cases` about
any write, and `Kept.replay` about a replay; `WellNamed.recorded` says that the schemas of well
named records are among those that a `SqlArchive` takes.  `SqlArchive.rows_of_reachable` is what any
number of runs leaves in a table.
-/

namespace ArtemisLight

/-! ### Tables that a record fills -/

/-- A schema of a record: the payload is the last column, and no other one goes by its name or by
that of the tie-breaker. -/
structure TableSchema.Recorded (b : ReplayBackend) (schema : TableSchema) : Prop where
  table : schema.table ≠ progressTable
  payload : (schema.columns.map Column.name).getLast? = some payloadColumn
  once : payloadColumn ∉ (schema.columns.map Column.name).dropLast
  tiebreak : b.tiebreakColumn schema.columns = none

instance (b : ReplayBackend) (schema : TableSchema) : Decidable (schema.Recorded b) :=
  decidable_of_iff (schema.table ≠ progressTable ∧
      (schema.columns.map Column.name).getLast? = some payloadColumn ∧
      payloadColumn ∉ (schema.columns.map Column.name).dropLast ∧
      b.tiebreakColumn schema.columns = none)
    ⟨fun h => ⟨h.1, h.2.1, h.2.2.1, h.2.2.2⟩, fun h => ⟨h.table, h.payload, h.once, h.tiebreak⟩⟩

/-- The write schema of a well named record is one, unless a column takes the place of the
tie-breaker. -/
theorem WellNamed.recorded {ids : Identifiers} {r : Record} (h : WellNamed ids r)
    {b : ReplayBackend} {schema : TableSchema} (hs : schema ∈ r.schema)
    (htiebreak : b.tiebreakColumn schema.columns = none) : schema.Recorded b := by
  have hdistinct := h.columns schema hs
  obtain ⟨columns, -, rfl⟩ := Option.map_eq_some_iff.mp hs
  rw [tableColumns_distinct] at hdistinct
  have hnames : ((columns ++ [⟨payloadColumn, .text⟩] : List Column).map Column.name)
      = columns.map Column.name ++ [payloadColumn] := List.map_append
  refine ⟨fun htable => h.table (congrArg ids.fold htable), ?_, ?_, htiebreak⟩
  · rw [hnames, List.getLast?_concat]
  · rw [hnames, List.dropLast_concat]
    exact fun hmem => hdistinct.payload _ hmem rfl

/-- A stored row of a record: its last cell is the payload. -/
structure StoredRow.Kept (row : StoredRow) : Prop where
  key : 0 ≤ row.blockNumber
  payload : (row.cells.map Prod.snd).getLast? = some (row.cell payloadColumn)

theorem TableSchema.Recorded.kept {b : ReplayBackend} {schema : TableSchema}
    (h : schema.Recorded b) {row : Row} (hlength : row.cells.length = schema.columns.length)
    (sortKey : Nat) : (schema.stored sortKey row).Kept := by
  refine ⟨Int.natCast_nonneg sortKey, ?_⟩
  obtain ⟨front, hfront⟩ := List.getLast?_eq_some_iff.mp h.payload
  have honce := h.once
  have hcells : row.cells.length = front.length + 1 := by
    rw [hlength, ← List.length_map (f := Column.name), hfront, List.length_append]
    rfl
  obtain ⟨cells, cell, hrow⟩ :=
    (List.eq_nil_or_concat row.cells).resolve_left fun hnil => by simp [hnil] at hcells
  rw [List.concat_eq_append] at hrow
  rw [hrow, List.length_append, List.length_singleton, Nat.add_right_cancel_iff] at hcells
  rw [hfront, List.dropLast_concat] at honce
  have hnone : (front.zip cells).lookup payloadColumn = none := by
    rw [List.lookup_eq_none_iff]
    intro p hp
    rw [bne_iff_ne]
    intro heq
    exact honce (heq ▸ (List.of_mem_zip hp).1)
  unfold TableSchema.stored StoredRow.cell
  rw [hfront, hrow, List.zip_append hcells.symm, List.map_append, List.lookup_append, hnone]
  simp

/-! ### The archive of a table -/

namespace Database

/-- A table as an archive. -/
def archive (db : Database) (table : String) : Archive BlockPosition :=
  ⟨((db.tables table).elim [] EventTable.rows).map fun row =>
      (row.blockNumber.toNat, ⟨row.cells.map Prod.snd⟩),
    (storedPosition BlockPosition db table).toOption.join⟩

/-- Records have filled the tables, and every table has a stored position or none. -/
structure Kept (d : Dialect) (b : ReplayBackend) (db : Database) : Prop where
  progress : ∀ table, ∃ stored, Represents d db table stored
  reserved : db.tables progressTable = none
  tiebreak : ∀ name table, db.tables name = some table → b.tiebreakColumn table.columns = none
  rows : ∀ name table, db.tables name = some table → ∀ row ∈ table.rows, row.Kept

/-- A database that nobody has written to is kept. -/
theorem Kept.fresh (d : Dialect) (b : ReplayBackend) : Kept d b SqlStore.fresh.db where
  progress _ := ⟨none, rfl⟩
  reserved := rfl
  tiebreak _ _ h := nomatch h
  rows _ _ h := nomatch h

end Database

section Written

variable {d : Dialect} {b : ReplayBackend} {db db' : Database} {schema : TableSchema}
  {position : BlockPosition} {rows : List Row}

/-- A write that succeeds commits to the archive of its table. -/
theorem Written.archive (hw : Written d schema position rows db db') (h : db.Kept d b) :
    db'.archive schema.table = (db.archive schema.table).commit position rows := by
  obtain ⟨stored, hstored⟩ := h.progress schema.table
  have hrows : (db.eventTable schema).rows
      = (db.tables schema.table).elim [] EventTable.rows := by
    unfold Database.eventTable
    rcases db.tables schema.table with _ | table
    · rfl
    · rfl
  have hnew : (rows.map (schema.stored (Position.sortKey position))).map
      (fun row => (row.blockNumber.toNat, (⟨row.cells.map Prod.snd⟩ : Row)))
        = rows.map (Position.sortKey position, ·) := by
    rw [List.map_map]
    refine List.map_congr_left fun row hrow => ?_
    have hcells : (((schema.columns.map Column.name).zip row.cells).map Prod.snd) = row.cells :=
      List.map_snd_zip (by rw [List.length_map, hw.shapes row hrow])
    show (_, (⟨_⟩ : Row)) = _
    rw [TableSchema.stored, hcells]
    rfl
  unfold Database.archive Archive.commit
  rw [hw.tables, Function.update_self, Option.elim_some, List.map_append, hnew, hrows,
    hstored.read, (hw.represents hstored).read]
  rfl

/-- It leaves the database kept. -/
theorem Written.kept (hw : Written d schema position rows db db') (h : db.Kept d b)
    (hs : schema.Recorded b) : db'.Kept d b := by
  -- a write changes the one table
  have htables : ∀ name table, db'.tables name = some table →
      db.tables name = some table ∨ table = { db.eventTable schema with
        rows := (db.eventTable schema).rows ++
          rows.map (schema.stored (Position.sortKey position)) } := by
    intro name table htable
    rw [hw.tables] at htable
    by_cases hname : name = schema.table
    · subst hname
      rw [Function.update_self] at htable
      exact Or.inr (Option.some.inj htable).symm
    · rw [Function.update_of_ne hname] at htable
      exact Or.inl htable
  have hold : b.tiebreakColumn (db.eventTable schema).columns = none ∧
      ∀ row ∈ (db.eventTable schema).rows, row.Kept := by
    unfold Database.eventTable
    rcases htable : db.tables schema.table with _ | table
    · exact ⟨hs.tiebreak, fun row hrow => nomatch hrow⟩
    · exact ⟨h.tiebreak _ _ htable, h.rows _ _ htable⟩
  refine ⟨fun table => ?_, ?_, fun name table htable => ?_, fun name table htable row hrow => ?_⟩
  · obtain ⟨stored, hstored⟩ := h.progress table
    by_cases htable : table = schema.table
    · subst htable
      exact ⟨_, hw.represents hstored⟩
    · exact ⟨stored, hw.represents_other htable hstored⟩
  · rw [hw.tables, Function.update_of_ne (Ne.symm hs.table)]
    exact h.reserved
  · rcases htables name table htable with htable | rfl
    · exact h.tiebreak name table htable
    · exact hold.1
  · rcases htables name table htable with htable | rfl
    · exact h.rows name table htable row hrow
    · rcases List.mem_append.mp hrow with hrow | hrow
      · exact hold.2 row hrow
      · obtain ⟨row', hrow', rfl⟩ := List.mem_map.mp hrow
        exact hs.kept (hw.shapes row' hrow') _

end Written

/-! ### Replaying the payloads -/

section Replay

variable {d : Dialect} {b : ReplayBackend} {db : Database} {table : String}

/-- The schema of a replay: the payload column. -/
abbrev payloadSchema (table : String) : TableSchema := ⟨table, [⟨payloadColumn, .text⟩]⟩

/-- Decoding one cell for each row gives that cell. -/
theorem cells_of_collectRows {cells : List SqlValue} {out : List Row}
    (h : collectRows (payloadSchema table) (cells.map fun cell => [cell]) = .ok out) :
    out.map Row.cells = cells.map fun cell => [cell] := by
  obtain ⟨rfl, -⟩ := (collectRows_ok_iff fun row hrow => by
    obtain ⟨cell, -, rfl⟩ := List.mem_map.mp hrow
    rfl).mp h
  rw [List.map_map]
  exact List.map_id _

/-- The query of a replay selects the payloads, for rows in the order of their keys. -/
theorem Database.Kept.replayQuery (h : db.Kept d b) {rows : EventTable}
    (htable : db.tables table = some rows)
    (hsorted : rows.rows.Pairwise fun row row' => row.blockNumber ≤ row'.blockNumber) {key : Int}
    {selected : List (List SqlValue)}
    (hquery : db.replayQuery b (payloadSchema table) key = .ok selected) :
    selected = ((rows.rows.filter fun row => row.blockNumber ≤ key).map
      fun row => row.cell payloadColumn).map fun cell => [cell] := by
  have hname : table ≠ progressTable := by
    rintro rfl
    rw [h.reserved] at htable
    exact nomatch htable
  have hbefore : (rows.rows.filter fun row => row.blockNumber ≤ key).Pairwise fun row row' =>
      StoredRow.before b none row row' = true := by
    refine (hsorted.filter _).imp fun {row row'} hle => before_iff.mpr ?_
    rcases Int.lt_or_eq_of_le hle with hlt | heq
    · exact Or.inl hlt
    · exact Or.inr ⟨heq, fun c hc => nomatch hc⟩
  unfold Database.replayQuery at hquery
  rw [if_neg (by simp), if_neg hname, htable] at hquery
  simp only [h.tiebreak table rows htable] at hquery
  split at hquery
  · rw [hbefore.insertionSort_eq] at hquery
    rw [← Except.ok.inj hquery, List.map_map]
    rfl
  · exact nomatch hquery

/-- The query fails without a table, and finds one with it. -/
theorem Database.Kept.replayQuery_isOk (h : db.Kept d b) {key : Int}
    {result : Except SqlError (List (List SqlValue))}
    (hquery : db.replayQuery b (payloadSchema table) key = result) :
    (∀ selected, result = .ok selected → (db.tables table).isSome) ∧
      (result = .error .undefinedTable → db.tables table = none) := by
  unfold Database.replayQuery at hquery
  rw [if_neg (by simp)] at hquery
  by_cases hname : table = progressTable
  · rw [if_pos hname] at hquery
    refine ⟨fun selected hok => ?_, fun _ => hname ▸ h.reserved⟩
    rcases hprogress : db.progress with _ | progress
    · rw [hprogress, hok] at hquery
      exact nomatch hquery
    · rw [hprogress, hok] at hquery
      exact nomatch hquery
  · rw [if_neg hname] at hquery
    rcases htable : db.tables table with _ | rows
    · rw [htable] at hquery
      exact ⟨fun selected hok => (nomatch hquery.trans hok), fun _ => rfl⟩
    · rw [htable] at hquery
      refine ⟨fun _ _ => rfl, fun herror => ?_⟩
      rw [herror] at hquery
      simp only at hquery
      split at hquery
      · exact nomatch hquery
      · exact nomatch hquery

/-- The payloads of an archive up to a key are those of the rows of its table. -/
theorem Database.Kept.payloads_upTo (h : db.Kept d b) {rows : EventTable}
    (htable : db.tables table = some rows) (key : Nat) :
    ((db.archive table).upTo key).map (fun r => r.payload?.toList)
      = ((rows.rows.filter fun row => row.blockNumber ≤ (key : Int)).map
          fun row => row.cell payloadColumn).map fun cell => [cell] := by
  have hrows := h.rows table rows htable
  have hfilter : (rows.rows.filter fun row => row.blockNumber ≤ (key : Int))
      = rows.rows.filter ((fun r : Nat × Row => decide (r.1 ≤ key)) ∘
          fun row => (row.blockNumber.toNat, ⟨row.cells.map Prod.snd⟩)) := by
    refine List.filter_congr fun row hrow => ?_
    have := (hrows row hrow).key
    simp only [Function.comp_apply, decide_eq_decide]
    omega
  rw [Archive.upTo, Database.archive, htable, Option.elim_some, List.filter_map, hfilter,
    List.map_map, List.map_map, List.map_map]
  refine List.map_congr_left fun row hrow => ?_
  have hpayload := (hrows row (List.mem_of_mem_filter hrow)).payload
  show Option.toList (List.getLast? _) = [row.cell payloadColumn]
  rw [hpayload]
  rfl

/-- The keys of an archive in order are the blocks of its table in order. -/
theorem Database.Kept.sorted (h : db.Kept d b) {rows : EventTable}
    (htable : db.tables table = some rows)
    (hsorted : (db.archive table).rows.Pairwise fun r r' => r.1 ≤ r'.1) :
    rows.rows.Pairwise fun row row' => row.blockNumber ≤ row'.blockNumber := by
  have hrows := h.rows table rows htable
  rw [Database.archive, htable, Option.elim_some, List.pairwise_map] at hsorted
  refine hsorted.imp_of_mem fun {row row'} hrow hrow' hle => ?_
  have := (hrows row hrow).key
  have := (hrows row' hrow').key
  simp only at hle
  omega

/-- A replay that answers gives the payloads of the archive up to its position. -/
theorem Database.Kept.replay {s : SqlStore} (h : s.db.Kept d b) {position : BlockPosition}
    {out : List Row} (hsorted : (s.db.archive table).rows.Pairwise fun r r' => r.1 ≤ r'.1)
    (hreplay : s.replay b (payloadSchema table) position = .ok out) :
    out.map Row.cells
      = ((s.db.archive table).upTo (Position.sortKey position)).map fun r => r.payload?.toList := by
  have hkey : Position.sortKey position ≤ i64Max := by
    by_contra hkey
    obtain ⟨e, he⟩ := replay_of_lt s b (payloadSchema table) (Nat.not_le.mp hkey)
    rw [he] at hreplay
    exact nomatch hreplay
  rcases hquery : s.db.replayQuery b (payloadSchema table) (Position.sortKey position)
    with e | selected
  · rw [replay_of_error hkey hquery] at hreplay
    by_cases he : e = .undefinedTable
    · -- without a table there is nothing to replay
      rw [if_pos he] at hreplay
      have htable := (h.replayQuery_isOk hquery).2 (by rw [he])
      rw [← Except.ok.inj hreplay, Database.archive, htable]
      rfl
    · rw [if_neg he] at hreplay
      exact nomatch hreplay
  · obtain ⟨rows, htable⟩ :=
      Option.isSome_iff_exists.mp ((h.replayQuery_isOk hquery).1 selected rfl)
    rw [replay_of_ok hkey hquery, mapError_eq_ok_iff,
      h.replayQuery htable (h.sorted htable hsorted) hquery] at hreplay
    rw [cells_of_collectRows hreplay, h.payloads_upTo htable]

end Replay

/-! ### The store -/

/-- A SQL store that one process writes to. -/
structure SqlArchive (d : Dialect) (b : ReplayBackend) where
  store : SqlStore
  /-- The number of writes so far. -/
  writes : Nat
  /-- What a write fails on, by its number, its attempt and the statement. -/
  faults : Nat → Nat → Nat → Option Fault
  /-- What the winner of a race commits. -/
  race : Database → Database
  /-- The text of an error. -/
  report : WriteError → Error
  kept : store.db.Kept d b
  /-- The winner creates tables, and fills none that is read here. -/
  quiet : ∀ db, db.Kept d b → (race db).Kept d b ∧
    ∀ table, (race db).archive table = db.archive table

namespace SqlArchive

variable {d : Dialect} {b : ReplayBackend} {schema : TableSchema} {position : BlockPosition}
  {rows : List Row}

/-- A write of a record's rows commits to the archive of its table, or changes no archive. -/
theorem write_cases (s : SqlArchive d b) (hs : schema.Recorded b) (position : BlockPosition)
    (rows : List Row) : ∃ (result : Except WriteError Unit) (after : SqlStore),
      s.store.write d (s.faults s.writes) s.race schema position rows = (result, after) ∧
        after.db.Kept d b ∧
        ((result = .ok () ∧ after.db.archive schema.table
            = (s.store.db.archive schema.table).commit position rows) ∨
          ∃ e, result = .error e ∧ ∀ table, after.db.archive table = s.store.db.archive table) := by
  obtain ⟨before, hbefore, hwrite⟩ :=
    write_rule d (s.faults s.writes) s.race s.store schema position rows
      (I := fun db => db.Kept d b ∧ ∀ table, db.archive table = s.store.db.archive table)
      (fun _ => ⟨s.kept, fun _ => rfl⟩) (fun _ => s.quiet _ s.kept)
  rcases hwrite with ⟨e, he⟩ | ⟨after, hok, hwritten⟩
  · exact ⟨_, _, he, hbefore.1, Or.inr ⟨e, rfl, hbefore.2⟩⟩
  · refine ⟨_, _, hok, hwritten.kept hbefore.1 hs, Or.inl ⟨rfl, ?_⟩⟩
    rw [hwritten.archive hbefore.1, hbefore.2]

theorem kept_write (s : SqlArchive d b) (hs : schema.Recorded b) (position : BlockPosition)
    (rows : List Row) :
    (s.store.write d (s.faults s.writes) s.race schema position rows).2.db.Kept d b := by
  obtain ⟨result, after, hwrite, hkept, -⟩ := s.write_cases hs position rows
  rw [hwrite]
  exact hkept

/-- A write under the schema of a record; no other one is asked for. -/
def write (s : SqlArchive d b) (schema : TableSchema) (position : BlockPosition)
    (rows : List Row) : Except Error Unit × SqlArchive d b :=
  if hs : schema.Recorded b then
    ((s.store.write d (s.faults s.writes) s.race schema position rows).1.mapError s.report,
      { s with
        store := (s.store.write d (s.faults s.writes) s.race schema position rows).2
        writes := s.writes + 1
        kept := s.kept_write hs position rows })
  else (.error "not the schema of a record", s)

/-- The archive of a store is that of its database. -/
theorem archive_write (s : SqlArchive d b) (schema : TableSchema) (position : BlockPosition)
    (rows : List Row) :
    ((s.write schema position rows).1 = .ok () ∧
        (s.write schema position rows).2.store.db.archive schema.table
          = (s.store.db.archive schema.table).commit position rows) ∨
      ∃ e, (s.write schema position rows).1 = .error e ∧
        ∀ table, (s.write schema position rows).2.store.db.archive table
          = s.store.db.archive table := by
  unfold write
  by_cases hs : schema.Recorded b
  · obtain ⟨result, after, hwrite, -, hcases⟩ := s.write_cases hs position rows
    simp only [dif_pos hs, hwrite]
    rcases hcases with ⟨rfl, hcommit⟩ | ⟨e, rfl, hsame⟩
    · exact Or.inl ⟨rfl, hcommit⟩
    · exact Or.inr ⟨_, rfl, hsame⟩
  · rw [dif_neg hs]
    exact Or.inr ⟨_, rfl, fun _ => rfl⟩

/-- A SQL store behaves as an archive. -/
instance : Archival (SqlArchive d b) BlockPosition where
  write := write
  storedPosition s table := (storedPosition BlockPosition s.store.db table).mapError s.report
  replay s schema position := (s.store.replay b schema position).mapError s.report
  archive s table := s.store.db.archive table
  archive_write_ok := by
    intro s s' schema position rows h
    rcases s.archive_write schema position rows with ⟨-, hcommit⟩ | ⟨e, he, -⟩
    · rw [h] at hcommit
      exact hcommit
    · rw [h] at he
      exact nomatch he
  archive_write_error := by
    intro s s' schema position rows e h
    rcases s.archive_write schema position rows with ⟨hok, -⟩ | ⟨-, -, hsame⟩
    · rw [h] at hok
      exact nomatch hok
    · rw [h] at hsame
      exact hsame schema.table
  storedPosition_ok := by
    intro s table stored h
    rw [mapError_eq_ok_iff] at h
    rw [Database.archive, h]
    cases stored <;> rfl
  replay_ok := by
    intro s table position out hsorted h
    rw [mapError_eq_ok_iff] at h
    exact s.kept.replay hsorted h

/-- The rows of a table that runs over a source that never reorganises leave behind: from the start
block on they are the chain up to the stored position. -/
theorem rows_of_reachable {τ ρ E : Type} [PersistableCollector τ BlockPosition E] [RecordOps ρ E]
    {chain : Nat → List E} {H : τ → Prop} (hH : NonReorganising chain H) {start : Nat}
    {table : String} {s : SqlArchive d b}
    (h : Reachable (SqlArchive d b) ρ chain H start table (Archival.archive s table))
    {rows : EventTable} (htable : s.store.db.tables table = some rows) {w : BlockPosition}
    (hw : storedPosition BlockPosition s.store.db table = .ok (some w)) :
    (rows.rows.filter fun row => (start : Int) ≤ row.blockNumber).map
        (fun row => (row.blockNumber, row.cell payloadColumn))
      = (chainEvents chain start w.block).map fun x =>
          ((x.1.block : Int), .text (RecordOps.payload ρ x.2)) := by
  have hrows := s.kept.rows table rows htable
  have hposition : (s.store.db.archive table).position = some w := by
    rw [Database.archive, hw]
    rfl
  have hsynced := congrArg (List.map fun x : Nat × Option SqlValue =>
    ((x.1 : Int), x.2.getD .null)) ((h.synced hH).rows w hposition)
  change List.map _ (List.map _ (List.filter _ (s.store.db.archive table).rows)) = _ at hsynced
  rw [Database.archive, htable, Option.elim_some, List.filter_map, List.map_map, List.map_map,
    List.map_map] at hsynced
  refine Eq.trans ?_ hsynced
  have hfilter : (rows.rows.filter fun row => (start : Int) ≤ row.blockNumber)
      = rows.rows.filter ((fun r : Nat × Row => decide (start ≤ r.1)) ∘
          fun row => (row.blockNumber.toNat, ⟨row.cells.map Prod.snd⟩)) := by
    refine List.filter_congr fun row hrow => ?_
    have := (hrows row hrow).key
    simp only [Function.comp_apply, decide_eq_decide]
    omega
  rw [hfilter]
  refine List.map_congr_left fun row hrow => ?_
  obtain ⟨hkey, hpayload⟩ := hrows row (List.mem_of_mem_filter hrow)
  show (row.blockNumber, _) = ((row.blockNumber.toNat : Int), (List.getLast? _).getD _)
  rw [hpayload, Int.toNat_of_nonneg hkey]
  rfl

end SqlArchive

end ArtemisLight
