import ArtemisLight.Lib.StableSort
import ArtemisLight.Persistence.Sql.Equiv.Write
import ArtemisLight.Persistence.Sql.Replay

/-!
## Write, then replay

`replay_exact_iff`: what a replay of written rows returns is the written rows if and only if no cell
of theirs is `NULL`, the sort key of the position fits its column, and neither the select list nor a
name of the schema confuses the query.
-/

namespace ArtemisLight

/-! ### Decoding -/

/-- A cell of the variant that a column of the type is decoded to. -/
def SqlType.holds : SqlType → SqlValue → Bool
  | .integer, .integer _ => true
  | .real, .real _ => true
  | .text, .text _ => true
  | .numeric, .text _ => true
  | .blob, .blob _ => true
  | _, _ => false

/-- A cell is decoded as it is, or not at all. -/
theorem decodeValue_ok_iff {ty : SqlType} {cell value : SqlValue} :
    decodeValue ty cell = .ok value ↔ value = cell ∧ ty.holds cell = true := by
  cases ty <;> cases cell <;> simp [decodeValue, SqlType.holds, eq_comm]

theorem holds_null (ty : SqlType) : ty.holds .null = false := by
  cases ty <;> rfl

/-- The cells of a row are of the columns' types. -/
def CellsHold (columns : List Column) (cells : List SqlValue) : Prop :=
  List.Forall₂ (fun c cell => c.ty.holds cell = true) columns cells

theorem decodeCells_ok_iff {columns : List Column} {cells values : List SqlValue}
    (hlen : cells.length = columns.length) :
    decodeCells columns cells = .ok values ↔ values = cells ∧ CellsHold columns cells := by
  induction columns generalizing cells values with
  | nil =>
    obtain rfl := List.length_eq_zero_iff.mp hlen
    have hnil : decodeCells [] [] = .ok values ↔ values = [] := by
      rw [decodeCells, Except.ok.injEq, eq_comm]
    rw [hnil, CellsHold, and_iff_left List.Forall₂.nil]
  | cons c columns ih =>
    obtain ⟨cell, cells, rfl⟩ := List.exists_cons_of_length_eq_add_one hlen
    rw [List.length_cons, List.length_cons, Nat.add_right_cancel_iff] at hlen
    have hbind : decodeCells (c :: columns) (cell :: cells) = .ok values ↔
        ∃ value, decodeValue c.ty cell = .ok value ∧
          ∃ rest, decodeCells columns cells = .ok rest ∧ values = value :: rest := by
      simp only [decodeCells]
      rcases decodeValue c.ty cell with e | value
      · simp [bind, Except.bind]
      · rcases decodeCells columns cells with e | rest
        · simp [bind, Except.bind]
        · simp [bind, Except.bind, pure, Except.pure, eq_comm]
    rw [hbind, CellsHold, List.forall₂_cons]
    constructor
    · rintro ⟨value, hvalue, rest, hrest, rfl⟩
      obtain ⟨rfl, hcell⟩ := decodeValue_ok_iff.mp hvalue
      obtain ⟨rfl, hcells⟩ := (ih hlen).mp hrest
      exact ⟨rfl, hcell, hcells⟩
    · rintro ⟨rfl, hcell, hcells⟩
      exact ⟨cell, decodeValue_ok_iff.mpr ⟨rfl, hcell⟩, cells, (ih hlen).mpr ⟨rfl, hcells⟩, rfl⟩

theorem collectRows_ok_iff {schema : TableSchema} {rows : List (List SqlValue)} {out : List Row}
    (hlen : ∀ cells ∈ rows, cells.length = schema.columns.length) :
    collectRows schema rows = .ok out ↔
      out = rows.map Row.mk ∧ ∀ cells ∈ rows, CellsHold schema.columns cells := by
  induction rows generalizing out with
  | nil => simp [collectRows, eq_comm]
  | cons cells rows ih =>
    obtain ⟨hhead, htail⟩ := List.forall_mem_cons.mp hlen
    have hbind : collectRows schema (cells :: rows) = .ok out ↔
        ∃ values, decodeCells schema.columns cells = .ok values ∧
          ∃ rest, collectRows schema rows = .ok rest ∧ out = ⟨values⟩ :: rest := by
      simp only [collectRows]
      rcases decodeCells schema.columns cells with e | values
      · simp [bind, Except.bind]
      · rcases collectRows schema rows with e | rest
        · simp [bind, Except.bind]
        · simp [bind, Except.bind, pure, Except.pure, eq_comm]
    rw [hbind, List.forall_mem_cons, List.map_cons]
    constructor
    · rintro ⟨values, hvalues, rest, hrest, rfl⟩
      obtain ⟨rfl, hcells⟩ := (decodeCells_ok_iff hhead).mp hvalues
      obtain ⟨rfl, hrows⟩ := (ih htail).mp hrest
      exact ⟨rfl, hcells, hrows⟩
    · rintro ⟨rfl, hcells, hrows⟩
      exact ⟨cells, (decodeCells_ok_iff hhead).mpr ⟨rfl, hcells⟩, _,
        (ih htail).mpr ⟨rfl, hrows⟩, rfl⟩

/-! ### The order of the rows -/

section Order

variable {b : ReplayBackend} {tiebreak : Option Column}

theorem before_iff {row row' : StoredRow} :
    StoredRow.before b tiebreak row row' = true ↔ row.blockNumber < row'.blockNumber ∨
      row.blockNumber = row'.blockNumber ∧
        ∀ c, tiebreak = some c → b.cellLe (row.cell c.name) (row'.cell c.name) = true := by
  unfold StoredRow.before
  by_cases heq : row.blockNumber = row'.blockNumber
  · rw [if_pos heq]
    cases tiebreak <;> simp [heq]
  · rw [if_neg heq]
    simp [heq]

theorem before_trans (row row' row'' : StoredRow)
    (h : StoredRow.before b tiebreak row row' = true)
    (h' : StoredRow.before b tiebreak row' row'' = true) :
    StoredRow.before b tiebreak row row'' = true := by
  rw [before_iff] at h h' ⊢
  rcases h with h | ⟨h, hcell⟩
  · rcases h' with h' | ⟨h', -⟩
    · exact Or.inl (h.trans h')
    · exact Or.inl (h' ▸ h)
  · rcases h' with h' | ⟨h', hcell'⟩
    · exact Or.inl (h ▸ h')
    · refine Or.inr ⟨h.trans h', fun c hc => ?_⟩
      exact b.cellLe_trans _ _ _ (hcell c hc) (hcell' c hc)

theorem before_total (row row' : StoredRow) :
    StoredRow.before b tiebreak row row' = true ∨ StoredRow.before b tiebreak row' row = true := by
  rw [before_iff, before_iff]
  rcases Int.lt_trichotomy row.blockNumber row'.blockNumber with h | h | h
  · exact Or.inl (Or.inl h)
  · cases tiebreak with
    | none => exact Or.inl (Or.inr ⟨h, fun c hc => nomatch hc⟩)
    | some column =>
      rcases b.cellLe_total (row.cell column.name) (row'.cell column.name) with hcell | hcell
      · exact Or.inl (Or.inr ⟨h, fun c hc => Option.some.inj hc ▸ hcell⟩)
      · exact Or.inr (Or.inr ⟨h.symm, fun c hc => Option.some.inj hc ▸ hcell⟩)
  · exact Or.inr (Or.inl h)

end Order

/-! ### Stored rows -/

section Stored

variable {b : ReplayBackend} {schema : TableSchema}

/-- The cells that a replay selects of a stored row. -/
def selectedCells (schema : TableSchema) (row : StoredRow) : List SqlValue :=
  schema.columns.map fun c => row.cell c.name

theorem map_lookup_zip {columns : List Column} {cells : List SqlValue}
    (hnames : (columns.map Column.name).Nodup) (hlen : cells.length = columns.length) :
    (columns.map fun c => (((columns.map Column.name).zip cells).lookup c.name).getD .null)
      = cells := by
  induction columns generalizing cells with
  | nil => exact (List.length_eq_zero_iff.mp hlen).symm
  | cons c columns ih =>
    obtain ⟨cell, cells, rfl⟩ := List.exists_cons_of_length_eq_add_one hlen
    rw [List.length_cons, List.length_cons, Nat.add_right_cancel_iff] at hlen
    rw [List.map_cons, List.nodup_cons] at hnames
    have hother : ∀ c' ∈ columns,
        (((c :: columns).map Column.name).zip (cell :: cells)).lookup c'.name
          = ((columns.map Column.name).zip cells).lookup c'.name := by
      intro c' hc'
      have hne : c'.name ≠ c.name := by
        intro heq
        exact hnames.1 (heq ▸ List.mem_map_of_mem hc')
      rw [List.map_cons, List.zip_cons_cons, List.lookup_cons, beq_eq_false_iff_ne.mpr hne]
    have htail : (columns.map fun c' =>
        ((((c :: columns).map Column.name).zip (cell :: cells)).lookup c'.name).getD .null)
          = cells := by
      conv_rhs => rw [← ih hnames.2 hlen]
      exact List.map_congr_left fun c' hc' => by rw [hother c' hc']
    rw [List.map_cons, htail]
    simp

/-- The cells of a row come back in the order of the columns. -/
theorem selectedCells_stored (hnames : (schema.columns.map Column.name).Nodup) {row : Row}
    (hlen : row.cells.length = schema.columns.length) (sortKey : Int) :
    selectedCells schema (schema.stored sortKey row) = row.cells :=
  map_lookup_zip hnames hlen

variable {tiebreak : Option Column} {rows : List (Nat × Row)}

/-- The rows of some writes as they are stored. -/
def storedRows (schema : TableSchema) (rows : List (Nat × Row)) : List StoredRow :=
  rows.map fun r => schema.stored r.1 r.2

/-- The rows of one sort key, in the order of the column that takes the place of the tie-breaker. -/
def Tiebroken (b : ReplayBackend) (schema : TableSchema) (rows : List (Nat × Row)) : Prop :=
  ∀ c, b.tiebreakColumn schema.columns = some c →
    rows.Pairwise fun r r' => r.1 = r'.1 →
      b.cellLe ((schema.stored r.1 r.2).cell c.name) ((schema.stored r'.1 r'.2).cell c.name) = true

/-- Rows under non-decreasing keys are stored in the order of the query if ties are in order. -/
theorem tiebroken_iff (hkeys : rows.Pairwise fun r r' => r.1 ≤ r'.1) :
    Tiebroken b schema rows ↔ (storedRows schema rows).Pairwise fun row row' =>
      StoredRow.before b (b.tiebreakColumn schema.columns) row row' = true := by
  unfold storedRows
  rw [List.pairwise_map]
  constructor
  · intro h
    cases htie : b.tiebreakColumn schema.columns with
    | none =>
      refine hkeys.imp fun {r r'} hle => before_iff.mpr ?_
      rcases Nat.lt_or_eq_of_le hle with hlt | heq
      · exact Or.inl (Int.ofNat_lt.mpr hlt)
      · exact Or.inr ⟨congrArg Int.ofNat heq, fun c hc => nomatch hc⟩
    | some c =>
      refine (hkeys.and (h c htie)).imp fun {r r'} hboth => before_iff.mpr ?_
      rcases Nat.lt_or_eq_of_le hboth.1 with hlt | heq
      · exact Or.inl (Int.ofNat_lt.mpr hlt)
      · refine Or.inr ⟨congrArg Int.ofNat heq, fun c' hc' => ?_⟩
        rw [← Option.some.inj hc']
        exact hboth.2 heq
  · intro h c hc
    refine h.imp fun {r r'} hbefore heq => ?_
    rcases before_iff.mp hbefore with hlt | ⟨-, hcell⟩
    · exact absurd (congrArg Int.ofNat heq) (Int.ne_of_lt hlt)
    · exact hcell c hc

/-- The cells of a sorted table are those of the rows in place if and only if ties are in order. -/
theorem map_selectedCells_insertionSort_iff (hkeys : rows.Pairwise fun r r' => r.1 ≤ r'.1) :
    ((storedRows schema rows).insertionSort fun row row' =>
        StoredRow.before b (b.tiebreakColumn schema.columns) row row' = true).map
          (selectedCells schema)
      = (storedRows schema rows).map (selectedCells schema) ↔ Tiebroken b schema rows := by
  have htotal : Std.Total fun row row' : StoredRow =>
      StoredRow.before b (b.tiebreakColumn schema.columns) row row' = true := ⟨before_total⟩
  have htrans : IsTrans StoredRow fun row row' =>
      StoredRow.before b (b.tiebreakColumn schema.columns) row row' = true := ⟨before_trans⟩
  rw [tiebroken_iff hkeys]
  constructor
  · intro hcells
    have hfiner : ∀ row row' : StoredRow,
        StoredRow.before b (b.tiebreakColumn schema.columns) row row' = true →
          row.blockNumber ≤ row'.blockNumber := by
      intro row row' h
      rcases before_iff.mp h with hlt | ⟨heq, -⟩
      · exact Int.le_of_lt hlt
      · exact Int.le_of_eq heq
    have hstored : (storedRows schema rows).Pairwise fun row row' =>
        row.blockNumber ≤ row'.blockNumber := by
      rw [storedRows, List.pairwise_map]
      exact hkeys.imp fun h => Int.ofNat_le.mpr h
    have hblocks := map_insertionSort_of_sorted StoredRow.blockNumber hfiner hstored
    -- the order depends only on a row's block and on one of its selected cells
    let shown : StoredRow → Int × List SqlValue := fun row =>
      (row.blockNumber, selectedCells schema row)
    have hshown := congrArg₂ List.zip hblocks hcells
    rw [List.zip_map', List.zip_map'] at hshown
    refine (map_insertionSort_eq_iff (f := shown) (s := fun p q => p.1 < q.1 ∨ p.1 = q.1 ∧
      ∀ (i : Nat) c, b.tiebreakColumn schema.columns = some c → schema.columns[i]? = some c →
        ∀ cell ∈ p.2[i]?, ∀ cell' ∈ q.2[i]?, b.cellLe cell cell' = true) ?_).mp hshown
    intro row row'
    have hselected : ∀ (row : StoredRow) (i : Nat) c, schema.columns[i]? = some c →
        (selectedCells schema row)[i]? = some (row.cell c.name) := by
      intro row i c hc
      rw [selectedCells, List.getElem?_map, hc]
      rfl
    rw [before_iff]
    refine or_congr_right (and_congr_right fun _ => ⟨fun h i c hc hi => ?_, fun h c hc => ?_⟩)
    · simp only [shown, hselected _ i c hi, Option.mem_some_iff, forall_eq']
      exact h c hc
    · obtain ⟨i, hi⟩ := List.getElem?_of_mem (List.mem_of_find?_eq_some hc)
      exact h i c hc hi _ (hselected row i c hi) _ (hselected row' i c hi)
  · intro h
    rw [h.insertionSort_eq]

/-- Decoding what a replay selects of the rows returns them if and only if none of them has a cell
of another type than its column, and ties are in order. -/
theorem collectRows_stored_iff (hnames : (schema.columns.map Column.name).Nodup)
    (hlen : ∀ r ∈ rows, r.2.cells.length = schema.columns.length)
    (hkeys : rows.Pairwise fun r r' => r.1 ≤ r'.1) :
    collectRows schema (((storedRows schema rows).insertionSort fun row row' =>
        StoredRow.before b (b.tiebreakColumn schema.columns) row row' = true).map
          (selectedCells schema)) = .ok (rows.map Prod.snd) ↔
      (∀ r ∈ rows, CellsHold schema.columns r.2.cells) ∧ Tiebroken b schema rows := by
  have hcells : (storedRows schema rows).map (selectedCells schema)
      = rows.map fun r => r.2.cells := by
    rw [storedRows, List.map_map]
    exact List.map_congr_left fun r hr => selectedCells_stored hnames (hlen r hr) r.1
  have hperm := ((List.perm_insertionSort (fun row row' : StoredRow =>
    StoredRow.before b (b.tiebreakColumn schema.columns) row row' = true)
      (storedRows schema rows)).map (selectedCells schema)).trans (List.Perm.of_eq hcells)
  rw [collectRows_ok_iff, ← map_selectedCells_insertionSort_iff hkeys, hcells, and_comm]
  · refine and_congr ?_ ?_
    · simp only [hperm.mem_iff, List.mem_map, forall_exists_index, and_imp,
        forall_apply_eq_imp_iff₂]
    · have hrows : rows.map Prod.snd = (rows.map fun r => r.2.cells).map Row.mk := by
        rw [List.map_map]
        rfl
      rw [hrows, eq_comm]
      exact (List.map_injective_iff.mpr fun _ _ h => Row.mk.inj h).eq_iff
  · intro cells hmem
    obtain ⟨r, hr, rfl⟩ := List.mem_map.mp (hperm.mem_iff.mp hmem)
    exact hlen r hr

end Stored

/-! ### Writes -/

section Writes

variable {P : Type} [Position P]

/-- The rows of some writes, each under its sort key. -/
def writtenRows (writes : List (P × List Row)) : List (Nat × Row) :=
  writes.flatMap fun w => w.2.map (Position.sortKey w.1, ·)

theorem writtenRows_concat (writes : List (P × List Row)) (position : P) (rows : List Row) :
    writtenRows (writes ++ [(position, rows)])
      = writtenRows writes ++ rows.map (Position.sortKey position, ·) := by
  rw [writtenRows, List.flatMap_append, List.flatMap_singleton]
  rfl

/-- The written rows up to a key are those of the writes up to it. -/
theorem filter_writtenRows (writes : List (P × List Row)) (key : Nat) :
    ((writtenRows writes).filter fun r => r.1 ≤ key).map Prod.snd
      = (writes.filter fun w => Position.sortKey w.1 ≤ key).flatMap Prod.snd := by
  induction writes with
  | nil => rfl
  | cons w writes ih =>
    have hcons : writtenRows (w :: writes)
        = w.2.map (Position.sortKey w.1, ·) ++ writtenRows writes := rfl
    rw [hcons, List.filter_append, List.map_append, ih, List.filter_cons]
    by_cases hle : Position.sortKey w.1 ≤ key
    · simp [hle, List.filter_map, Function.comp_def]
    · simp [hle, List.filter_map, Function.comp_def]

variable {d : Dialect} {schema : TableSchema} {start st : SqlStore} {writes : List (P × List Row)}

/-- The table that some writes fill. -/
structure Filled (schema : TableSchema) (writes : List (P × List Row)) (st : SqlStore) : Prop where
  table : st.db.eventTable schema = ⟨schema.columns, storedRows schema (writtenRows writes)⟩
  shapes : ∀ r ∈ writtenRows writes, r.2.cells.length = schema.columns.length
  keys : (writtenRows writes).Pairwise fun r r' => r.1 ≤ r'.1
  created : writes ≠ [] → (st.db.tables schema.table).isSome ∧ st.db.progress.isSome

section Encoded

variable [PositionEncoding P]

/-- What the successful writes of one schema, at non-decreasing positions, make of a store.  A
writer that wins a race for the tables leaves the rows of this one alone. -/
inductive Writes (d : Dialect) (schema : TableSchema) (start : SqlStore) :
    List (P × List Row) → SqlStore → Prop
  | nil : Writes d schema start [] start
  | concat {writes : List (P × List Row)} {st st' : SqlStore} {faults : Nat → Nat → Option Fault}
      {race : Database → Database} {position : P} {rows : List Row} :
      Writes d schema start writes st →
      (∀ w ∈ writes, Position.sortKey w.1 ≤ Position.sortKey position) →
      (∀ db, (race db).eventTable schema = db.eventTable schema) →
      st.write d faults race schema position rows = (.ok (), st') →
      Writes d schema start (writes ++ [(position, rows)]) st'

/-- One more write. -/
theorem Filled.concat (h : Filled schema writes st) {st' : SqlStore}
    {faults : Nat → Nat → Option Fault} {race : Database → Database} {position : P}
    {rows : List Row}
    (hkeys : ∀ w ∈ writes, Position.sortKey w.1 ≤ Position.sortKey position)
    (hrace : ∀ db, (race db).eventTable schema = db.eventTable schema)
    (hwrite : st.write d faults race schema position rows = (.ok (), st')) :
    Filled schema (writes ++ [(position, rows)]) st' := by
  -- the winner of a lost race leaves this table alone
  obtain ⟨db, htable, hresult⟩ := write_rule d faults race st schema position rows
    (I := fun db => db.eventTable schema = st.db.eventTable schema) (fun _ => rfl)
    (fun _ => hrace st.db)
  obtain ⟨after, hafter, hwritten⟩ : ∃ after, st' = ⟨after, true⟩ ∧
      Written d schema position rows db after := by
    rcases hresult with ⟨e, herror⟩ | ⟨after, hok, hwritten⟩
    · rw [herror] at hwrite
      exact nomatch (Prod.mk.inj hwrite).1
    · rw [hok] at hwrite
      exact ⟨after, (Prod.mk.inj hwrite).2.symm, hwritten⟩
  have hmember : ∀ r ∈ rows.map (Position.sortKey position, ·),
      ∃ row ∈ rows, (Position.sortKey position, row) = r := fun r hr => List.mem_map.mp hr
  subst hafter
  refine ⟨?_, ?_, ?_, fun _ => ⟨?_, ?_⟩⟩
  · rw [writtenRows_concat]
    unfold Database.eventTable
    rw [hwritten.tables, Function.update_self, Option.getD_some, htable, h.table]
    simp [storedRows]
  · rw [writtenRows_concat]
    refine List.forall_mem_append.mpr ⟨h.shapes, fun r hr => ?_⟩
    obtain ⟨row, hrow, rfl⟩ := hmember r hr
    exact hwritten.shapes row hrow
  · rw [writtenRows_concat, List.pairwise_append]
    refine ⟨h.keys, ?_, fun r hr r' hr' => ?_⟩
    · rw [List.pairwise_map]
      exact List.pairwise_of_forall fun _ _ => Nat.le_refl _
    · obtain ⟨row, -, rfl⟩ := hmember r' hr'
      obtain ⟨w, hw, hmem⟩ := List.mem_flatMap.mp hr
      obtain ⟨row', -, rfl⟩ := List.mem_map.mp hmem
      exact hkeys w hw
  · rw [hwritten.tables, Function.update_self]
    rfl
  · obtain ⟨prev, -, -, hprogress⟩ := hwritten.progress
    rw [hprogress]
    rfl

theorem Writes.filled (h : Writes d schema start writes st)
    (hstart : start.db.tables schema.table = none) : Filled schema writes st := by
  induction h with
  | nil =>
    refine ⟨?_, ?_, List.Pairwise.nil, fun h => absurd rfl h⟩
    · unfold Database.eventTable
      rw [hstart]
      rfl
    · exact fun r hr => nomatch hr
  | concat hwrites hkeys hrace hwrite ih => exact ih.concat hkeys hrace hwrite

theorem Writes.eq_start (h : Writes d schema start ([] : List (P × List Row)) st) : st = start := by
  generalize hnil : ([] : List (P × List Row)) = writes at h
  cases h with
  | nil => rfl
  | concat => exact absurd hnil.symm (by simp)

end Encoded

/-! ### Replay -/

/-- The query selects the rows up to a key. -/
theorem Filled.replayQuery_eq (h : Filled schema writes st) (hwrites : writes ≠ [])
    {b : ReplayBackend} (hselect : schema.columns = [] → b.emptySelect = true)
    (htable : schema.table ≠ progressTable) (key : Nat) :
    st.db.replayQuery b schema key
      = .ok (((storedRows schema ((writtenRows writes).filter fun r => r.1 ≤ key)).insertionSort
          fun row row' => StoredRow.before b (b.tiebreakColumn schema.columns) row row' = true).map
            (selectedCells schema)) := by
  obtain ⟨table, hsome⟩ := Option.isSome_iff_exists.mp (h.created hwrites).1
  have heq := h.table
  rw [Database.eventTable, hsome, Option.getD_some] at heq
  have hguard : ¬ (schema.columns = [] ∧ b.emptySelect = false) := by
    rintro ⟨hnil, hempty⟩
    rw [hselect hnil] at hempty
    exact nomatch hempty
  have hall : (schema.columns.all fun c => (schema.columns.map Column.name).contains c.name)
      = true := by
    rw [List.all_eq_true]
    intro c hc
    rw [List.contains_iff_mem]
    exact List.mem_map_of_mem hc
  have hselected : (storedRows schema (writtenRows writes)).filter
        (fun row => decide (row.blockNumber ≤ (key : Int)))
      = storedRows schema ((writtenRows writes).filter fun r => decide (r.1 ≤ key)) := by
    unfold storedRows
    rw [List.filter_map]
    congr 1
    apply List.filter_congr
    intro r _
    exact decide_eq_decide.mpr Int.ofNat_le
  unfold Database.replayQuery
  rw [if_neg hguard, if_neg htable, hsome, heq]
  simp only
  rw [if_pos hall, hselected]
  rfl

/-- A cell that fits its column or is `NULL` is decoded unless it is `NULL`. -/
theorem cellsHold_iff {columns : List Column} {cells : List SqlValue}
    (h : List.Forall₂ (fun c cell => cell = SqlValue.null ∨ c.ty.holds cell = true) columns cells) :
    CellsHold columns cells ↔ SqlValue.null ∉ cells := by
  induction h with
  | nil => exact ⟨fun _ => List.not_mem_nil, fun _ => List.Forall₂.nil⟩
  | @cons c cell columns cells hcell _ ih =>
    rw [CellsHold, List.forall₂_cons, List.mem_cons, not_or]
    refine and_congr ⟨?_, fun hne => hcell.resolve_left (Ne.symm hne)⟩ ih
    rintro hholds rfl
    rw [holds_null] at hholds
    exact nomatch hholds

/-- The condition for a replay to return what was written. -/
structure ReplaysExactly (b : ReplayBackend) (schema : TableSchema) (start : SqlStore)
    (writes : List (P × List Row)) (upTo : P) : Prop where
  /-- No cell up to the position is `NULL`. -/
  no_null : ∀ w ∈ writes, Position.sortKey w.1 ≤ Position.sortKey upTo →
    ∀ row ∈ w.2, SqlValue.null ∉ row.cells
  /-- The position's sort key fits the block column. -/
  key : Position.sortKey upTo ≤ i64Max
  /-- The backend accepts the select list. -/
  select : schema.columns = [] → b.emptySelect = true
  /-- The table is not the one of the progress rows, unless there is none. -/
  table : schema.table = progressTable → writes = [] ∧ start.db.progress = none
  /-- A column that takes the place of the tie-breaker agrees with it. -/
  tiebreak : Tiebroken b schema
    ((writtenRows writes).filter fun r => r.1 ≤ Position.sortKey upTo)

theorem no_null_iff {key : Nat}
    (hcells : ∀ w ∈ writes, ∀ row ∈ w.2, List.Forall₂
      (fun c cell => cell = SqlValue.null ∨ c.ty.holds cell = true) schema.columns row.cells) :
    (∀ r ∈ (writtenRows writes).filter (fun r => r.1 ≤ key), CellsHold schema.columns r.2.cells) ↔
      ∀ w ∈ writes, Position.sortKey w.1 ≤ key → ∀ row ∈ w.2, SqlValue.null ∉ row.cells := by
  constructor
  · intro h w hw hle row hrow
    have hmem : (Position.sortKey w.1, row)
        ∈ (writtenRows writes).filter (fun r => decide (r.1 ≤ key)) :=
      List.mem_filter.mpr ⟨List.mem_flatMap.mpr ⟨w, hw, List.mem_map_of_mem hrow⟩,
        decide_eq_true hle⟩
    exact (cellsHold_iff (hcells w hw row hrow)).mp (h _ hmem)
  · intro h r hr
    obtain ⟨hmem, hle⟩ := List.mem_filter.mp hr
    obtain ⟨w, hw, hmap⟩ := List.mem_flatMap.mp hmem
    obtain ⟨row, hrow, rfl⟩ := List.mem_map.mp hmap
    exact (cellsHold_iff (hcells w hw row hrow)).mpr (h w hw (of_decide_eq_true hle) row hrow)

theorem mapError_eq_ok_iff {ε ε' α : Type} {result : Except ε α} {f : ε → ε'} {a : α} :
    result.mapError f = .ok a ↔ result = .ok a := by
  cases result with
  | error e => exact ⟨fun h => (nomatch h), fun h => (nomatch h)⟩
  | ok a' => exact ⟨fun h => congrArg Except.ok (Except.ok.inj h), fun h => h ▸ rfl⟩

section Replay

variable {b : ReplayBackend} {upTo : P}

theorem replay_of_lt (st : SqlStore) (b : ReplayBackend) (schema : TableSchema)
    (hkey : i64Max < Position.sortKey upTo) :
    ∃ e, st.replay b schema upTo = .error e := by
  unfold SqlStore.replay sortKeyToI64
  rw [if_neg (Nat.not_le.mpr hkey)]
  exact ⟨_, rfl⟩

theorem replay_of_error {e : SqlError} (hkey : Position.sortKey upTo ≤ i64Max)
    (hquery : st.db.replayQuery b schema (Position.sortKey upTo) = .error e) :
    st.replay b schema upTo = if e = .undefinedTable then .ok [] else .error (.sql e) := by
  unfold SqlStore.replay sortKeyToI64
  rw [if_pos hkey]
  simp only
  rw [hquery]
  cases e <;> rfl

theorem replay_of_ok {rows : List (List SqlValue)} (hkey : Position.sortKey upTo ≤ i64Max)
    (hquery : st.db.replayQuery b schema (Position.sortKey upTo) = .ok rows) :
    st.replay b schema upTo = (collectRows schema rows).mapError .sql := by
  unfold SqlStore.replay sortKeyToI64
  rw [if_pos hkey]
  simp only
  rw [hquery]

/-- Without writes there is no event table. -/
theorem replay_nil_iff (hstart : start.db.tables schema.table = none)
    (hkey : Position.sortKey upTo ≤ i64Max) (hselect : schema.columns = [] → b.emptySelect = true) :
    start.replay b schema upTo = .ok [] ↔
      ReplaysExactly b schema start ([] : List (P × List Row)) upTo := by
  have hguard : ¬ (schema.columns = [] ∧ b.emptySelect = false) := fun h => by
    rw [hselect h.1] at h
    exact nomatch h.2
  have hexactly : (schema.table = progressTable → start.db.progress = none) ↔
      ReplaysExactly b schema start ([] : List (P × List Row)) upTo :=
    ⟨fun h => ⟨fun w hw => (nomatch hw), hkey, hselect, fun htable => ⟨rfl, h htable⟩,
      fun c hc => List.Pairwise.nil⟩, fun h htable => (h.table htable).2⟩
  rw [← hexactly]
  by_cases htable : schema.table = progressTable
  · cases hprogress : start.db.progress with
    | none =>
      have hquery : start.db.replayQuery b schema (Position.sortKey upTo)
          = .error .undefinedTable := by
        rw [Database.replayQuery, if_neg hguard, if_pos htable, hprogress]
      rw [replay_of_error hkey hquery]
      exact ⟨fun _ _ => rfl, fun _ => rfl⟩
    | some progress =>
      have hquery : start.db.replayQuery b schema (Position.sortKey upTo)
          = .error .undefinedColumn := by
        rw [Database.replayQuery, if_neg hguard, if_pos htable, hprogress]
      rw [replay_of_error hkey hquery]
      exact ⟨fun h => (nomatch h), fun h => (nomatch h htable)⟩
  · have hquery : start.db.replayQuery b schema (Position.sortKey upTo)
        = .error .undefinedTable := by
      rw [Database.replayQuery, if_neg hguard, if_neg htable, hstart]
    rw [replay_of_error hkey hquery]
    exact ⟨fun _ h => absurd h htable, fun _ => rfl⟩

/-- The table of the progress rows, once it is there, has no column of blocks. -/
theorem Filled.replay_progressTable (h : Filled schema writes st) (hwrites : writes ≠ [])
    (hkey : Position.sortKey upTo ≤ i64Max) (hselect : schema.columns = [] → b.emptySelect = true)
    (htable : schema.table = progressTable) :
    st.replay b schema upTo = .error (.sql .undefinedColumn) := by
  have hguard : ¬ (schema.columns = [] ∧ b.emptySelect = false) := fun h => by
    rw [hselect h.1] at h
    exact nomatch h.2
  obtain ⟨progress, hprogress⟩ := Option.isSome_iff_exists.mp (h.created hwrites).2
  have hquery : st.db.replayQuery b schema (Position.sortKey upTo) = .error .undefinedColumn := by
    rw [Database.replayQuery, if_neg hguard, if_pos htable, hprogress]
  rw [replay_of_error hkey hquery]
  rfl

end Replay

/-- A replay after successful writes returns the written rows up to its position, in order, if and
only if none of their cells is `NULL`, the position's key fits, and the schema does not confuse the
query.  A table that is created has no two columns of one name. -/
theorem replay_exact_iff [PositionEncoding P] (d : Dialect) (b : ReplayBackend)
    {schema : TableSchema} {start st : SqlStore} {writes : List (P × List Row)} (upTo : P)
    (hstart : start.db.tables schema.table = none) (hwrites : Writes d schema start writes st)
    (hcreated : writes ≠ [] → (schema.columns.map Column.name).Nodup)
    (hcells : ∀ w ∈ writes, ∀ row ∈ w.2, List.Forall₂
      (fun c cell => cell = SqlValue.null ∨ c.ty.holds cell = true) schema.columns row.cells) :
    st.replay b schema upTo
        = .ok ((writes.filter fun w => Position.sortKey w.1 ≤ Position.sortKey upTo).flatMap
            Prod.snd) ↔
      ReplaysExactly b schema start writes upTo := by
  have hfilled := hwrites.filled hstart
  -- each failure of the replay is a field of `ReplaysExactly` that does not hold
  by_cases hkey : Position.sortKey upTo ≤ i64Max
  case neg =>
    obtain ⟨e, he⟩ := replay_of_lt st b schema (Nat.not_le.mp hkey)
    rw [he]
    exact ⟨fun h => (nomatch h), fun h => absurd h.key hkey⟩
  by_cases hselect : schema.columns = [] → b.emptySelect = true
  case neg =>
    obtain ⟨hnil, hempty⟩ := Classical.not_imp.mp hselect
    have hquery : st.db.replayQuery b schema (Position.sortKey upTo)
        = .error (.other "syntax error") := by
      rw [Database.replayQuery, if_pos ⟨hnil, Bool.not_eq_true _ ▸ hempty⟩]
    rw [replay_of_error hkey hquery]
    exact ⟨fun h => (nomatch h), fun h => absurd h.select hselect⟩
  by_cases hnil : writes = []
  · subst hnil
    rw [hwrites.eq_start]
    exact replay_nil_iff hstart hkey hselect
  by_cases htable : schema.table = progressTable
  · rw [hfilled.replay_progressTable hnil hkey hselect htable]
    exact ⟨fun h => (nomatch h), fun h => absurd (h.table htable).1 hnil⟩
  -- what is left is to read the stored cells back
  have hcollect := collectRows_stored_iff (b := b) (hcreated hnil)
    (fun r hr => hfilled.shapes r (List.mem_of_mem_filter hr))
    (hfilled.keys.filter fun r => decide (r.1 ≤ Position.sortKey upTo))
  rw [no_null_iff hcells] at hcollect
  rw [replay_of_ok hkey (hfilled.replayQuery_eq hnil hselect htable _), mapError_eq_ok_iff,
    ← filter_writtenRows, hcollect]
  constructor
  · rintro ⟨hnull, htie⟩
    exact ⟨hnull, hkey, hselect, fun h => absurd h htable, htie⟩
  · exact fun h => ⟨h.no_null, h.tiebreak⟩

end Writes

/-- SQLite, for tables whose columns leave the tie-breaker alone. -/
def ReplayBackend.plainSqlite : ReplayBackend :=
  .sqlite postgres.cellLe postgres.cellLe_trans postgres.cellLe_total

/-- A store on a database that no one has written to. -/
def SqlStore.fresh : SqlStore := ⟨⟨none, fun _ => none⟩, false⟩

/-- Amounts, some of which have a memo. -/
def transfers : TableSchema := ⟨"transfers", [⟨"amount", .integer⟩, ⟨"memo", .text⟩]⟩

/-- A store after a write of transfers. -/
def SqlStore.transferred (s : SqlStore) (block : BlockPosition) (rows : List Row) : SqlStore :=
  (s.write .integersOnly (fun _ _ => none) id transfers block rows).2

/-- A transfer without an amount is written, and no replay gets past it. -/
theorem null_cell_not_replayed :
    SqlStore.fresh.write .integersOnly (fun _ _ => none) id transfers (⟨1⟩ : BlockPosition)
        [⟨[.null, .text "rent"]⟩]
        = (.ok (), SqlStore.fresh.transferred ⟨1⟩ [⟨[.null, .text "rent"]⟩]) ∧
      (SqlStore.fresh.transferred ⟨1⟩ [⟨[.null, .text "rent"]⟩]).replay .plainSqlite transfers
          (⟨1⟩ : BlockPosition)
        = .error (.sql (.other "unexpected null")) := by
  have hok : (SqlStore.fresh.write .integersOnly (fun _ _ => none) id transfers
      (⟨1⟩ : BlockPosition) [⟨[.null, .text "rent"]⟩]).1 = .ok () := rfl
  refine ⟨?_, rfl⟩
  rw [← hok]
  rfl

/-- The transfers of two blocks, of which a replay returns the first. -/
theorem transfers_replayed :
    ((SqlStore.fresh.transferred ⟨1⟩ [⟨[.integer 7, .text "rent"]⟩]).transferred ⟨2⟩
        [⟨[.integer 4, .text "tea"]⟩]).replay .plainSqlite transfers (⟨1⟩ : BlockPosition)
        = .ok [⟨[.integer 7, .text "rent"]⟩] := by
  have hok : (SqlStore.fresh.write .integersOnly (fun _ _ => none) id transfers
      (⟨1⟩ : BlockPosition) [⟨[.integer 7, .text "rent"]⟩]).1 = .ok () := rfl
  have hok' : ((SqlStore.fresh.transferred ⟨1⟩ [⟨[.integer 7, .text "rent"]⟩]).write .integersOnly
      (fun _ _ => none) id transfers (⟨2⟩ : BlockPosition) [⟨[.integer 4, .text "tea"]⟩]).1
        = .ok () := rfl
  have hfirst : Writes .integersOnly transfers SqlStore.fresh
      ([] ++ [((⟨1⟩ : BlockPosition), [⟨[.integer 7, .text "rent"]⟩])])
      (SqlStore.fresh.transferred ⟨1⟩ [⟨[.integer 7, .text "rent"]⟩]) :=
    .concat .nil (fun w hw => nomatch hw) (fun _ => rfl) (Prod.ext hok rfl)
  have hsecond : Writes .integersOnly transfers SqlStore.fresh
      ([((⟨1⟩ : BlockPosition), [⟨[.integer 7, .text "rent"]⟩])] ++
        [(⟨2⟩, [⟨[.integer 4, .text "tea"]⟩])])
      ((SqlStore.fresh.transferred ⟨1⟩ [⟨[.integer 7, .text "rent"]⟩]).transferred ⟨2⟩
        [⟨[.integer 4, .text "tea"]⟩]) :=
    .concat hfirst (by simp) (fun _ => rfl) (Prod.ext hok' rfl)
  refine (replay_exact_iff .integersOnly .plainSqlite (⟨1⟩ : BlockPosition) rfl hsecond
    (fun _ => by decide) ?_).mpr ⟨?_, by decide, fun h => (nomatch h), ?_, ?_⟩
  · simp [transfers, SqlType.holds]
  · simp
  · exact fun h => absurd h (by decide)
  · intro c hc
    have hnone : ReplayBackend.plainSqlite.tiebreakColumn transfers.columns = none := by decide
    rw [hnone] at hc
    exact nomatch hc

end ArtemisLight
