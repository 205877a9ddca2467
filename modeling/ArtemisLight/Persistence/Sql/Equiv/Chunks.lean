import ArtemisLight.Persistence.Sql.Equiv.Text

/-!
## Inserting rows by chunks

The statements of `insert_rows` carry the rows one by one, whatever the number of rows and of
columns.  `wire` is a connection that keeps what it is sent.
-/

namespace ArtemisLight

open Lexer

/-- A connection that keeps what it is sent; it fails as the verdicts on the statements say. -/
def wire (verdict : Nat → Option SqlError) (statement : Statement) :
    Proc (List Statement) WriteError Unit :=
  Proc.step fun issued => ((verdict issued.length).elim (.ok ()) fun e => .error (.sql e),
    issued ++ [statement])

/-- A row with one cell per column. -/
def Row.Fits (schema : TableSchema) (row : Row) : Prop := row.cells.length = schema.columns.length

instance (schema : TableSchema) : DecidablePred (Row.Fits schema) :=
  fun _ => inferInstanceAs (Decidable (_ = _))

/-- The values that a list of rows binds. -/
def boundValues (sortKey : SqlValue) (rows : List Row) : List SqlValue :=
  rows.flatMap fun row => sortKey :: row.cells

/-- The statement that inserts a chunk of rows. -/
def chunkStatement (dialect : Backend) (schema : TableSchema) (sortKey : SqlValue)
    (chunk : List Row) : Statement :=
  ⟨Query.insertStatement schema dialect chunk.length, boundValues sortKey chunk⟩

variable {S : Type} {dialect : Backend} {send : Statement → Proc S WriteError Unit}
  {schema : TableSchema} {sortKey : SqlValue} {chunkRows : Nat}

/-! ### Binding -/

theorem checkRowShapes_cons (row : Row) (rows : List Row) :
    checkRowShapes schema (row :: rows)
      = checkRowShapes schema [row] >>= fun _ => checkRowShapes schema rows := by
  by_cases hrow : row.cells.length = schema.columns.length
  · rw [checkRowShapes, checkRowShapes, if_pos hrow, if_pos hrow]
    rfl
  · rw [checkRowShapes, checkRowShapes, if_neg hrow, if_neg hrow]
    rfl

/-- The rows are checked, and their values are bound in order. -/
theorem bindRows_eq (rows : List Row) :
    bindRows schema sortKey rows
      = checkRowShapes schema rows >>= fun _ => .ok (boundValues sortKey rows) := by
  induction rows with
  | nil => rfl
  | cons row rows ih =>
    rw [bindRows, ih, checkRowShapes_cons row rows]
    cases checkRowShapes schema [row] with
    | error e => rfl
    | ok u =>
      show (checkRowShapes schema rows >>= fun _ => _) >>= _ = checkRowShapes schema rows >>= _
      cases checkRowShapes schema rows with
      | error e => rfl
      | ok u => rfl

theorem checkRowShapes_ok_iff {rows : List Row} :
    checkRowShapes schema rows = .ok () ↔ ∀ row ∈ rows, row.Fits schema := by
  induction rows with
  | nil => exact ⟨fun _ row h => (nomatch h), fun _ => rfl⟩
  | cons row rows ih =>
    rw [List.forall_mem_cons, ← ih, checkRowShapes]
    by_cases hrow : row.cells.length = schema.columns.length
    · rw [if_pos hrow]
      exact ⟨fun h => ⟨hrow, h⟩, And.right⟩
    · rw [if_neg hrow]
      exact ⟨fun h => (nomatch h), fun h => absurd h.1 hrow⟩

/-! ### The full-chunk text -/

/-- The kept text is the one for a full chunk. -/
def Kept (dialect : Backend) (schema : TableSchema) (chunkRows : Nat) (text : Option String) :
    Prop :=
  ∀ sql ∈ text, sql = Query.insertStatement schema dialect chunkRows

/-- The text for a chunk has the placeholders of its own number of rows. -/
theorem chunkInsert_eq {kept : Option String} (h : Kept dialect schema chunkRows kept)
    (chunk : List Row) :
    (chunkInsert dialect schema chunkRows kept chunk).1
        = Query.insertStatement schema dialect chunk.length ∧
      Kept dialect schema chunkRows (chunkInsert dialect schema chunkRows kept chunk).2 := by
  unfold chunkInsert
  split
  · rename_i hfull
    have htext : kept.getD (Query.insertStatement schema dialect chunkRows)
        = Query.insertStatement schema dialect chunkRows := by
      cases kept with
      | none => rfl
      | some sql => exact h sql rfl
    rw [htext, hfull]
    refine ⟨rfl, ?_⟩
    rintro sql ⟨⟩
    rfl
  · exact ⟨rfl, h⟩

/-- What `insert_rows` does with each chunk, apart from where it takes the text from. -/
def sendPlain (dialect : Backend) (send : Statement → Proc S WriteError Unit)
    (schema : TableSchema) (sortKey : SqlValue) : List (List Row) → Proc S WriteError Unit
  | [] => return ()
  | chunk :: rest => do
    Proc.ofExcept (checkRowShapes schema chunk)
    send (chunkStatement dialect schema sortKey chunk)
    sendPlain dialect send schema sortKey rest

theorem sendChunks_eq (pieces : List (List Row)) {kept : Option String}
    (h : Kept dialect schema chunkRows kept) :
    sendChunks dialect send schema sortKey chunkRows kept pieces
      = sendPlain dialect send schema sortKey pieces := by
  induction pieces generalizing kept with
  | nil => rfl
  | cons chunk rest ih =>
    obtain ⟨htext, hkept⟩ := chunkInsert_eq h chunk
    rcases hinsert : chunkInsert dialect schema chunkRows kept chunk with ⟨insert, kept'⟩
    rw [hinsert] at htext hkept
    obtain rfl : insert = _ := htext
    rw [sendChunks, hinsert, bindRows_eq, sendPlain]
    simp only [ih hkept]
    cases checkRowShapes schema chunk with
    | error e => rfl
    | ok u => rfl

theorem sendRows_eq (rows : List Row) :
    sendRows dialect send schema sortKey rows = sendPlain dialect send schema sortKey
      (chunks (rowsPerChunk (1 + schema.columns.length)) rows) :=
  sendChunks_eq _ fun _ h => (nomatch h)

/-! ### On the wire -/

section Wire

variable {verdict : Nat → Option SqlError} {issued : List Statement}

/-- What is sent, chunk by chunk. -/
def statements (dialect : Backend) (schema : TableSchema) (sortKey : SqlValue)
    (pieces : List (List Row)) : List Statement :=
  pieces.map (chunkStatement dialect schema sortKey)

/-- The chunks before one that is not checked through are sent, unless a statement fails. -/
theorem sendPlain_wire (dialect : Backend) (sortKey : SqlValue) (verdict : Nat → Option SqlError)
    (issued : List Statement) (done rest : List (List Row))
    (hdone : ∀ piece ∈ done, ∀ row ∈ piece, row.Fits schema) :
    (∃ e sent, (sendPlain dialect (wire verdict) schema sortKey (done ++ rest)).exec issued
        = (.error e, issued ++ sent) ∧ sent <+: statements dialect schema sortKey done ∧
        ∃ i, verdict i ≠ none) ∨
      (sendPlain dialect (wire verdict) schema sortKey (done ++ rest)).exec issued
        = (sendPlain dialect (wire verdict) schema sortKey rest).exec
          (issued ++ statements dialect schema sortKey done) := by
  induction done generalizing issued with
  | nil =>
    have hnil : statements dialect schema sortKey [] = [] := rfl
    rw [hnil, List.append_nil]
    exact .inr rfl
  | cons piece done ih =>
    obtain ⟨hpiece, hdone⟩ := List.forall_mem_cons.mp hdone
    rw [List.cons_append, sendPlain, checkRowShapes_ok_iff.mpr hpiece, Proc.ofExcept_ok_bind]
    -- the database takes the statement, or the first fault ends the write
    rcases hverdict : verdict issued.length with _ | e
    · have hsend : (wire verdict (chunkStatement dialect schema sortKey piece)).exec issued
          = (.ok (), issued ++ [chunkStatement dialect schema sortKey piece]) := by
        unfold wire
        rw [Proc.exec_step, hverdict]
        rfl
      have hcons : statements dialect schema sortKey (piece :: done)
          = chunkStatement dialect schema sortKey piece :: statements dialect schema sortKey done :=
        rfl
      rw [Proc.exec_bind_ok hsend, hcons]
      rcases ih _ hdone with ⟨e, sent, hexec, hsent, hfault⟩ | hexec
      · refine .inl ⟨e, _ :: sent, ?_, List.cons_prefix_cons.mpr ⟨rfl, hsent⟩, hfault⟩
        rw [hexec, List.append_assoc]
        rfl
      · rw [hexec, List.append_assoc]
        exact .inr rfl
    · have hsend : (wire verdict (chunkStatement dialect schema sortKey piece)).exec issued
          = (.error (.sql e), issued ++ [chunkStatement dialect schema sortKey piece]) := by
        unfold wire
        rw [Proc.exec_step, hverdict]
        rfl
      refine .inl ⟨.sql e, [_], Proc.exec_bind_error hsend, ?_, issued.length, ?_⟩
      · exact List.cons_prefix_cons.mpr ⟨rfl, List.nil_prefix⟩
      · rw [hverdict]
        exact Option.some_ne_none e

end Wire

/-! ### Placeholders -/

/-- The parameters of the rows are numbered in one go. -/
theorem numbered_across_rows {α : Type} (f : Nat → α) (columns rows : Nat) :
    (List.range rows).flatMap
        (fun row => (List.range' 1 columns).map fun i => f (row * columns + i))
      = (List.range' 1 (rows * columns)).map f := by
  induction rows with
  | zero => rw [Nat.zero_mul]; rfl
  | succ rows ih =>
    have hlast : (List.range' 1 columns).map (fun i => f (rows * columns + i))
        = (List.range' (rows * columns + 1) columns).map f := by
      have hshift : List.range' (rows * columns + 1) columns
          = (List.range' 1 columns).map (rows * columns + ·) := List.map_add_range' .. |>.symm
      rw [hshift, List.map_map]
      rfl
    rw [List.range_succ, List.flatMap_append, ih, List.flatMap_singleton, hlast, ← List.map_append,
      Nat.succ_mul, Nat.add_comm (rows * columns) 1, List.range'_append_1]

theorem placeholderText_groupTokens (b : Backend) (columns row : Nat) :
    (groupTokens b columns row).filterMap placeholderText
      = (List.range' 1 columns).map fun i => b.placeholder (row * columns + i) := by
  have hitem (i : Nat) : [b.placeholderToken (row * columns + i)].filterMap placeholderText
      = [b.placeholder (row * columns + i)] := by
    rw [List.filterMap_cons, Backend.placeholderText_token]
    rfl
  unfold groupTokens
  rw [List.filterMap_append, List.filterMap_append, filterMap_intercalate _ rfl,
    flatMap_items hitem, List.map_eq_flatMap]
  exact List.append_nil _

/-- The placeholders of the multi-row insert, numbered from one. -/
theorem placeholders_insertStatement (b : Backend) (rows : Nat) :
    placeholders (Query.insertStatement schema b rows)
      = (List.range' 1 (rows * (1 + schema.columns.length))).map b.placeholder := by
  have hname (c : Column) : [quoted c.name].filterMap placeholderText = [] := rfl
  unfold placeholders tokens
  rw [(reads_insertStatement b schema rows).lex, List.filterMap_append, List.filterMap_append,
    List.filterMap_append, filterMap_intercalate _ rfl, filterMap_intercalate _ rfl,
    List.flatMap_cons, flatMap_items hname, flatMap_items (placeholderText_groupTokens b _),
    List.flatMap_eq_nil_iff.mpr fun _ _ => rfl, numbered_across_rows b.placeholder]
  rfl

/-! ### Chunks of rows -/

theorem length_boundValues (sortKey : SqlValue) {rows : List Row}
    (h : ∀ row ∈ rows, row.Fits schema) :
    (boundValues sortKey rows).length = rows.length * (1 + schema.columns.length) := by
  induction rows with
  | nil => rw [List.length_nil, Nat.zero_mul]; rfl
  | cons row rows ih =>
    obtain ⟨hrow, hrows⟩ := List.forall_mem_cons.mp h
    have hcells : row.cells.length = schema.columns.length := hrow
    have hcons : boundValues sortKey (row :: rows)
        = (sortKey :: row.cells) ++ boundValues sortKey rows := rfl
    rw [hcons, List.length_append, ih hrows, List.length_cons, List.length_cons, hcells,
      Nat.succ_mul]
    omega

theorem rowsPerChunk_pos (paramsPerRow : Nat) : 0 < rowsPerChunk paramsPerRow :=
  Nat.le_max_right _ _

/-- A chunk binds no more than the cap, unless a single row does. -/
theorem rowsPerChunk_le {paramsPerRow : Nat} (h : 0 < paramsPerRow) :
    (paramsPerRow ≤ bindParamCap → rowsPerChunk paramsPerRow * paramsPerRow ≤ bindParamCap) ∧
      (bindParamCap < paramsPerRow → rowsPerChunk paramsPerRow = 1) := by
  unfold rowsPerChunk
  rw [Nat.max_eq_left h]
  constructor
  · intro hle
    have hone : 1 ≤ bindParamCap / paramsPerRow := (Nat.one_le_div_iff h).mpr hle
    rw [Nat.max_eq_left hone]
    exact Nat.div_mul_le_self _ _
  · intro hlt
    rw [Nat.div_eq_of_lt hlt]
    rfl

/-! ### The rows of a write -/

/-- On a database connection, the statements do what the store's inserts do, if each of them inserts
the rows whose values are bound to it. -/
theorem sendRows_refines {d : Dialect} {faults : Nat → Option Fault} {key : Int}
    {send : Statement → Proc Session WriteError Unit}
    (hsend : ∀ chunk : List Row, (∀ row ∈ chunk, row.Fits schema) →
      send (chunkStatement dialect schema (.integer key) chunk)
        = execute d faults .sql (Database.insertStatement · schema key chunk)) (rows : List Row) :
    sendRows dialect send schema (.integer key) rows = insertRows d faults schema key rows := by
  rw [sendRows_eq, insertRows]
  generalize chunks (rowsPerChunk (1 + schema.columns.length)) rows = pieces
  induction pieces with
  | nil => rfl
  | cons chunk rest ih =>
    rw [sendPlain, insertChunks, ih]
    rcases hchunk : checkRowShapes schema chunk with e | ⟨⟩
    · rfl
    · rw [hsend chunk (checkRowShapes_ok_iff.mp hchunk)]

/-- The statements carry the rows one after the other. -/
structure RowByRow (dialect : Backend) (schema : TableSchema) (sortKey : SqlValue)
    (rows : List Row) (issued : List Statement) : Prop where
  values : issued.flatMap Statement.args = rows.flatMap fun row => sortKey :: row.cells
  /-- No row is split. -/
  unsplit : ∃ pieces : List (List Row), pieces.flatten = rows ∧ issued.map Statement.args
    = pieces.map fun piece => piece.flatMap fun row => sortKey :: row.cells
  empty : rows = [] → issued = []
  /-- There are as many placeholders as values, numbered in the order of the values. -/
  numbered : ∀ s ∈ issued,
    placeholders s.sql = (List.range' 1 s.args.length).map dialect.placeholder
  capped : 1 + schema.columns.length ≤ 999 → ∀ s ∈ issued, s.args.length ≤ 999
  single : 999 < 1 + schema.columns.length → ∀ s ∈ issued,
    s.args.length = 1 + schema.columns.length
  /-- The text that is kept for full chunks is sent for full chunks only. -/
  full : ∀ s ∈ issued,
    s.sql = Query.insertStatement schema dialect (rowsPerChunk (1 + schema.columns.length)) →
    s.args.length = rowsPerChunk (1 + schema.columns.length) * (1 + schema.columns.length)

theorem rowByRow_chunks {rows : List Row} (h : ∀ row ∈ rows, row.Fits schema) :
    RowByRow dialect schema sortKey rows (statements dialect schema sortKey
      (chunks (rowsPerChunk (1 + schema.columns.length)) rows)) := by
  have hpos := rowsPerChunk_pos (1 + schema.columns.length)
  have hflatten := flatten_chunks hpos rows
  have hpieces := length_of_mem_chunks hpos rows
  obtain ⟨hcap, hone⟩ := rowsPerChunk_le (Nat.lt_add_right schema.columns.length Nat.one_pos)
  generalize chunks (rowsPerChunk (1 + schema.columns.length)) rows = pieces at hflatten hpieces
  have hlength : ∀ piece ∈ pieces, (boundValues sortKey piece).length
      = piece.length * (1 + schema.columns.length) := by
    intro piece hpiece
    refine length_boundValues sortKey fun row hrow => h row ?_
    rw [← hflatten]
    exact List.mem_flatten.mpr ⟨piece, hpiece, hrow⟩
  have hargs : (statements dialect schema sortKey pieces).map Statement.args
      = pieces.map (boundValues sortKey) := List.map_map ..
  have hnumbered : ∀ piece ∈ pieces,
      placeholders (chunkStatement dialect schema sortKey piece).sql
        = (List.range' 1 (boundValues sortKey piece).length).map dialect.placeholder := by
    intro piece hpiece
    rw [hlength piece hpiece]
    exact placeholders_insertStatement dialect piece.length
  constructor
  · rw [List.flatMap_def, hargs, ← hflatten, ← List.flatMap_id (L := pieces), List.flatMap_assoc]
    rfl
  · exact ⟨pieces, hflatten, hargs⟩
  · rintro rfl
    rcases pieces with _ | ⟨piece, pieces⟩
    · rfl
    · obtain ⟨hnil, -⟩ := hpieces piece List.mem_cons_self
      exact absurd (List.append_eq_nil_iff.mp hflatten).1 hnil
  · rintro s hs
    obtain ⟨piece, hpiece, rfl⟩ := List.mem_map.mp hs
    exact hnumbered piece hpiece
  · rintro hle s hs
    obtain ⟨piece, hpiece, rfl⟩ := List.mem_map.mp hs
    show (boundValues sortKey piece).length ≤ 999
    rw [hlength piece hpiece]
    exact Nat.le_trans (Nat.mul_le_mul_right _ (hpieces piece hpiece).2) (hcap hle)
  · rintro hlt s hs
    obtain ⟨piece, hpiece, rfl⟩ := List.mem_map.mp hs
    show (boundValues sortKey piece).length = _
    obtain ⟨hnil, hle⟩ := hpieces piece hpiece
    have hsingle : piece.length = 1 := by
      rw [hone hlt] at hle
      have hne : 0 < piece.length := List.length_pos_iff.mpr hnil
      omega
    rw [hlength piece hpiece, hsingle, Nat.one_mul]
  · -- texts with the same placeholders bind as many values
    rintro s hs hfull
    obtain ⟨piece, hpiece, rfl⟩ := List.mem_map.mp hs
    have hcount := congrArg List.length (hnumbered piece hpiece)
    rw [hfull, placeholders_insertStatement, List.length_map, List.length_map, List.length_range',
      List.length_range'] at hcount
    exact hcount.symm

/-- The statements of a chunked insert carry the rows one after the other, and they are sent as long
as none fails.  A row of the wrong length makes the insert fail before its chunk is sent. -/
theorem inserts_row_by_row (dialect : Backend) (schema : TableSchema) (sortKey : SqlValue)
    (rows : List Row) :
    ((∀ row ∈ rows, row.cells.length = schema.columns.length) →
      ∃ issued, RowByRow dialect schema sortKey rows issued ∧ ∀ verdict, ∃ result sent,
        (sendRows dialect (wire verdict) schema sortKey rows).exec [] = (result, sent) ∧
        sent <+: issued ∧ (result = .ok () → sent = issued) ∧
        ((∀ i, verdict i = none) → result = .ok ())) ∧
    ((∃ row ∈ rows, row.cells.length ≠ schema.columns.length) →
      ∃ done bad rest, chunks (rowsPerChunk (1 + schema.columns.length)) rows
          = done ++ bad :: rest ∧
        (∀ piece ∈ done, ∀ row ∈ piece, row.cells.length = schema.columns.length) ∧
        (∃ row ∈ bad, row.cells.length ≠ schema.columns.length) ∧
        ∀ verdict, ∃ e sent,
          (sendRows dialect (wire verdict) schema sortKey rows).exec [] = (.error e, sent) ∧
          sent <+: statements dialect schema sortKey done ∧
          ((∀ i, verdict i = none) → sent = statements dialect schema sortKey done)) := by
  have hflatten := flatten_chunks (rowsPerChunk_pos (1 + schema.columns.length)) rows
  constructor
  · intro h
    refine ⟨_, rowByRow_chunks h, fun verdict => ?_⟩
    rw [sendRows_eq]
    have hfits : ∀ piece ∈ chunks (rowsPerChunk (1 + schema.columns.length)) rows,
        ∀ row ∈ piece, row.Fits schema := by
      intro piece hpiece row hrow
      apply h row
      rw [← hflatten]
      exact List.mem_flatten.mpr ⟨piece, hpiece, hrow⟩
    have hwire := sendPlain_wire dialect sortKey verdict [] _ [] hfits
    rw [List.append_nil] at hwire
    rcases hwire with ⟨e, sent, hexec, hsent, i, hi⟩ | hexec
    · exact ⟨_, _, hexec, hsent, fun h => (nomatch h), fun h => absurd (h i) hi⟩
    · exact ⟨_, _, hexec, List.prefix_rfl, fun _ => rfl, fun _ => rfl⟩
  · rintro ⟨row, hrow, hlen⟩
    rw [← hflatten] at hrow
    obtain ⟨piece, hpiece, hmem⟩ := List.mem_flatten.mp hrow
    -- the first chunk that has a row of the wrong length
    have hfound : ((chunks (rowsPerChunk (1 + schema.columns.length)) rows).find? fun piece =>
        decide (∃ row ∈ piece, ¬ row.Fits schema)).isSome :=
      List.find?_isSome.mpr ⟨piece, hpiece, decide_eq_true ⟨row, hmem, hlen⟩⟩
    obtain ⟨bad, hbad⟩ := Option.isSome_iff_exists.mp hfound
    obtain ⟨hwrong, done, rest, hpieces, hdone⟩ := List.find?_eq_some_iff_append.mp hbad
    have hwrong := of_decide_eq_true hwrong
    have hfits : ∀ piece ∈ done, ∀ row ∈ piece, row.Fits schema := by
      intro piece hpiece row hrow
      have hnot := hdone piece hpiece
      rw [Bool.not_eq_true', decide_eq_false_iff_not] at hnot
      exact not_not.mp fun h => hnot ⟨row, hrow, h⟩
    refine ⟨done, bad, rest, hpieces, hfits, hwrong, fun verdict => ?_⟩
    rw [sendRows_eq, hpieces]
    rcases sendPlain_wire dialect sortKey verdict [] done (bad :: rest) hfits with
      ⟨e, sent, hexec, hsent, i, hi⟩ | hexec
    · exact ⟨e, _, hexec, hsent, fun h => absurd (h i) hi⟩
    · have herror : ∃ e, checkRowShapes schema bad = .error e := by
        rcases hcheck : checkRowShapes schema bad with e | ⟨⟩
        · exact ⟨e, rfl⟩
        · obtain ⟨row, hrow, hnot⟩ := hwrong
          exact absurd (checkRowShapes_ok_iff.mp hcheck row hrow) hnot
      obtain ⟨e, he⟩ := herror
      rw [sendPlain, he] at hexec
      exact ⟨e, _, hexec, List.prefix_rfl, fun _ => rfl⟩

/-- A table so wide that two rows fill a chunk, and three rows for it. -/
def wideSchema : TableSchema := ⟨"transfer", List.replicate 400 ⟨"value", .integer⟩⟩

def wideRows : List Row := List.replicate 3 ⟨List.replicate 400 .null⟩

theorem inserts_row_by_row_wide : ∃ issued, 2 ≤ issued.length ∧
    RowByRow .postgres wideSchema (.integer 7) wideRows issued ∧
    (sendRows .postgres (wire fun _ => none) wideSchema (.integer 7) wideRows).exec []
      = (.ok (), issued) := by
  have hfits : ∀ row ∈ wideRows, row.cells.length = wideSchema.columns.length := by
    intro row hrow
    rw [List.eq_of_mem_replicate hrow]
    exact List.length_replicate.trans List.length_replicate.symm
  obtain ⟨issued, hrows, hsend⟩ :=
    (inserts_row_by_row .postgres wideSchema (.integer 7) wideRows).1 hfits
  obtain ⟨result, sent, hexec, -, hall, hok⟩ := hsend fun _ => none
  have hresult := hok fun _ => rfl
  rw [hresult, hall hresult] at hexec
  refine ⟨issued, ?_, hrows, hexec⟩
  -- one statement cannot bind all the values
  have hcolumns : wideSchema.columns.length = 400 := List.length_replicate
  have hvalues : (issued.flatMap Statement.args).length = 1203 := by
    rw [hrows.values]
    exact (length_boundValues (.integer 7) hfits).trans (by rw [hcolumns]; rfl)
  have hcap := hrows.capped (by rw [hcolumns]; decide)
  rcases issued with _ | ⟨s, _ | ⟨t, issued⟩⟩
  · exact nomatch hvalues
  · have hle := hcap s List.mem_cons_self
    rw [List.flatMap_singleton] at hvalues
    omega
  · exact Nat.le_add_left 2 _

end ArtemisLight
