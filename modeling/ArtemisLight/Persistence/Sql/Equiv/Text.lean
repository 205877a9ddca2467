import ArtemisLight.Lib.Lexer
import ArtemisLight.Persistence.Sql.Query

/-!
## Names stay inside their quotes

The texts of the statements, token by token.  What a text says besides its identifiers does not
depend on how the table and its columns are called.
-/

namespace ArtemisLight

open Lexer

/-- The tokens of a statement. -/
def tokens (sql : String) : List Lexeme := lex sql.toList

/-- The tokens of a statement, whatever its identifiers are called. -/
def skeleton (sql : String) : List Lexeme := (tokens sql).map Lexeme.erase

/-- The name of a quoted identifier. -/
def identName (t : Lexeme) : Option String := t.ident?.map String.ofList

/-- The text of a placeholder. -/
def placeholderText (t : Lexeme) : Option String := t.placeholder?.map String.ofList

/-- The identifiers of a statement that are quoted, in order. -/
def identifiers (sql : String) : List String := (tokens sql).filterMap identName

/-- The placeholders of a statement, in order. -/
def placeholders (sql : String) : List String := (tokens sql).filterMap placeholderText

/-! ### Items -/

/-- The token of a keyword or of a bare identifier. -/
def keyword (text : String) : Lexeme := .word text.toList

/-- The token of a quoted identifier. -/
def quoted (name : String) : Lexeme := .ident name.toList

@[simp] theorem identName_quoted (name : String) : identName (quoted name) = some name := by
  show some (String.ofList name.toList) = _
  rw [String.ofList_toList]

@[simp] theorem identName_keyword (text : String) : identName (keyword text) = none := rfl

@[simp] theorem identName_symbol (c : Char) : identName (.symbol c) = none := rfl

@[simp] theorem erase_quoted (name : String) : (quoted name).erase = .ident [] := rfl

@[simp] theorem erase_keyword (text : String) : (keyword text).erase = keyword text := rfl

theorem quoteIdent_toList (name : String) : (quoteIdent name).toList = quote name.toList := by
  have hdouble : ∀ cs : List Char,
      (cs.flatMap fun c => if c = '"' then "\"\"".toList else [c]) = double cs := by
    intro cs
    induction cs with
    | nil => rfl
    | cons c cs ih =>
      rw [List.flatMap_cons, ih, double]
      split <;> rfl
  unfold quoteIdent replaceChar
  rw [hdouble]
  simp only [String.toList_append, String.toList_ofList]
  rfl

theorem reads_quoteIdent (name : String) : Reads (quoteIdent name) [quoted name] := by
  constructor
  · rw [quoteIdent_toList]
    exact whole_of_closing (after_quote _)
  · rw [quoteIdent_toList]
    exact lex_quote _

/-- Distinct names are quoted differently. -/
theorem quoteIdent_injective : Function.Injective quoteIdent := by
  intro a b h
  have hlist : quote a.toList = quote b.toList := by
    rw [← quoteIdent_toList, ← quoteIdent_toList, h]
  exact String.toList_inj.mp (quote_injective hlist)

theorem reads_blockNumberColumn : Reads blockNumberColumn [keyword "block_number"] :=
  .of_word "block_number".toList rfl rfl

namespace Backend

variable (b : Backend)

/-- The token of a placeholder. -/
def placeholderToken (n : Nat) : Lexeme :=
  match b with
  | .sqlite => .symbol '?'
  | .postgres => .word ('$' :: Nat.toDigits 10 n)

theorem reads_placeholder (n : Nat) : Reads (b.placeholder n) [b.placeholderToken n] := by
  cases b with
  | sqlite =>
    have hmark : after "?".toList = .outside ∧ lex "?".toList = [.symbol '?'] := by decide
    exact ReadsOpen.reads ⟨hmark.1, hmark.2⟩
  | postgres =>
    have htext : (placeholder .postgres n).toList = '$' :: Nat.toDigits 10 n := by
      show ("$" ++ toString n).toList = _
      rw [String.toList_append, Nat.toString_eq_ofList_toDigits]
      simp only [String.toList_ofList]
      rfl
    have hdigits : ∀ c ∈ Nat.toDigits 10 n, isWord c = true := by
      intro c hc
      have hdigit := Nat.isDigit_of_mem_toDigits (by decide) (by decide) hc
      unfold isWord Char.isAlphanum
      rw [hdigit, Bool.or_true]
      rfl
    obtain ⟨hlex, hafter⟩ := read_word ['$'] hdigits
    constructor
    · rw [htext]
      exact whole_of_word hafter
    · rw [htext]
      exact hlex

theorem placeholderText_token (n : Nat) :
    placeholderText (b.placeholderToken n) = some (b.placeholder n) := by
  cases b with
  | sqlite => rfl
  | postgres =>
    show some (String.ofList (['$'] ++ Nat.toDigits 10 n)) = some ("$" ++ toString n)
    rw [String.ofList_append, Nat.toString_eq_ofList_toDigits]

@[simp] theorem identName_token (n : Nat) : identName (b.placeholderToken n) = none := by
  cases b <;> rfl

theorem reads_tiebreak : Reads b.tiebreak [keyword b.tiebreak] := by
  cases b with
  | sqlite => exact .of_word "rowid".toList rfl rfl
  | postgres => exact .of_word "ctid".toList rfl rfl

/-- The tokens of a column type. -/
def typeTokens : SqlType → List Lexeme
  | .real => if b = .sqlite then [keyword "REAL"] else [keyword "DOUBLE", keyword "PRECISION"]
  | ty => [keyword (b.columnType ty)]

theorem reads_columnType (ty : SqlType) : Reads (b.columnType ty) (b.typeTokens ty) := by
  have hword : ∃ text, after (b.columnType ty).toList = .word text := by
    cases b <;> cases ty <;> exact ⟨_, rfl⟩
  obtain ⟨text, htext⟩ := hword
  apply Reads.of_word _ htext
  cases b <;> cases ty <;> rfl

@[simp] theorem identName_typeTokens (ty : SqlType) :
    (b.typeTokens ty).filterMap identName = [] := by
  cases b <;> cases ty <;> rfl

end Backend

/-! ### Statements -/

section Statements

variable (b : Backend) (schema : TableSchema)

/-- The tokens of the definition of a column. -/
def columnTokens (c : Column) : List Lexeme := quoted c.name :: b.typeTokens c.ty

/-- The tokens of the definition of the block column. -/
def blockTokens : List Lexeme :=
  keyword "block_number" :: (b.typeTokens .integer ++ [keyword "NOT", keyword "NULL"])

theorem reads_createEventTable :
    Reads (Query.createEventTable schema b) ([keyword "CREATE", keyword "TABLE", keyword "IF",
      keyword "NOT", keyword "EXISTS", quoted schema.table, .symbol '(']
      ++ [Lexeme.symbol ','].intercalate (blockTokens b :: schema.columns.map (columnTokens b))
      ++ [.symbol ')']) := by
  have hspace : Fixed " " [] := by decide
  have hblock : Reads (blockNumberColumn ++ " " ++ b.columnType .integer ++ " NOT NULL")
      (blockTokens b) :=
    ((reads_blockNumberColumn.fixed hspace).item (b.reads_columnType .integer)).append
      (.of_word "NULL".toList rfl rfl) (by decide)
  have hcolumn (c : Column) : Reads (quoteIdent c.name ++ " " ++ b.columnType c.ty)
      (columnTokens b c) :=
    ((reads_quoteIdent c.name).fixed hspace).item (b.reads_columnType c.ty)
  have hstart : ReadsOpen "CREATE TABLE IF NOT EXISTS " [keyword "CREATE", keyword "TABLE",
    keyword "IF", keyword "NOT", keyword "EXISTS"] := ⟨rfl, rfl⟩
  have hopen : Fixed " (" [.symbol '('] := by decide
  have hclose : Fixed ")" [.symbol ')'] := by decide
  have htable := (hstart.item (reads_quoteIdent schema.table)).fixed hopen
  have hdefs := htable.item (.join (.cons hblock (forall₂_reads hcolumn schema.columns)))
  exact (hdefs.fixed hclose).reads

/-- The tokens of the placeholders of one row. -/
def groupTokens (columns row : Nat) : List Lexeme :=
  [.symbol '('] ++ [Lexeme.symbol ','].intercalate ((List.range' 1 columns).map fun i =>
    [b.placeholderToken (row * columns + i)]) ++ [.symbol ')']

theorem reads_placeholderGroup (columns row : Nat) :
    Reads (Query.placeholderGroup b columns row) (groupTokens b columns row) := by
  have hstart : ReadsOpen "(" [.symbol '('] := ⟨rfl, rfl⟩
  have hclose : Fixed ")" [.symbol ')'] := by decide
  have hitems := hstart.item (.join (forall₂_reads (fun i =>
    b.reads_placeholder (row * columns + i)) (List.range' 1 columns)))
  exact (hitems.fixed hclose).reads

theorem insertColumnNames_length :
    (Query.insertColumnNames schema).length = 1 + schema.columns.length := by
  unfold Query.insertColumnNames
  rw [List.length_cons, List.length_map, Nat.add_comm]

theorem reads_insertStatement (rows : Nat) :
    Reads (Query.insertStatement schema b rows) ([keyword "INSERT", keyword "INTO",
      quoted schema.table, .symbol '(']
      ++ [Lexeme.symbol ','].intercalate
        ([keyword "block_number"] :: schema.columns.map fun c => [quoted c.name])
      ++ [.symbol ')', keyword "VALUES"]
      ++ [Lexeme.symbol ','].intercalate
        ((List.range rows).map (groupTokens b (1 + schema.columns.length)))) := by
  have hcolumns : List.Forall₂ Reads (Query.insertColumnNames schema)
      ([keyword "block_number"] :: schema.columns.map fun c => [quoted c.name]) :=
    .cons reads_blockNumberColumn
      (forall₂_reads (fun c : Column => reads_quoteIdent c.name) schema.columns)
  have hstart : ReadsOpen "INSERT INTO " [keyword "INSERT", keyword "INTO"] := ⟨rfl, rfl⟩
  have hopen : Fixed " (" [.symbol '('] := by decide
  have hvalues : Fixed ") VALUES " [.symbol ')', keyword "VALUES"] := by decide
  have htable := (hstart.item (reads_quoteIdent schema.table)).fixed hopen
  have htarget := (htable.item (.join hcolumns)).fixed hvalues
  rw [← insertColumnNames_length]
  exact htarget.item (.join (forall₂_reads
    (reads_placeholderGroup b (Query.insertColumnNames schema).length) (List.range rows)))

theorem reads_replayQuery :
    Reads (Query.replayQuery schema b) ([keyword "SELECT"]
      ++ [Lexeme.symbol ','].intercalate (schema.columns.map fun c => [quoted c.name])
      ++ [keyword "FROM", quoted schema.table, keyword "WHERE", keyword "block_number",
        .symbol '<', .symbol '=', b.placeholderToken 1, keyword "ORDER", keyword "BY",
        keyword "block_number", keyword "ASC", .symbol ',', keyword b.tiebreak,
        keyword "ASC"]) := by
  have hstart : ReadsOpen "SELECT " [keyword "SELECT"] := ⟨rfl, rfl⟩
  have hfrom : Fixed " FROM " [keyword "FROM"] := by decide
  have hwhere : Fixed " WHERE " [keyword "WHERE"] := by decide
  have hle : Fixed " <= " [.symbol '<', .symbol '='] := by decide
  have horder : Fixed " ORDER BY " [keyword "ORDER", keyword "BY"] := by decide
  have hasc : Fixed " ASC, " [keyword "ASC", .symbol ','] := by decide
  have hcolumns := hstart.item (.join (forall₂_reads (fun c : Column =>
    reads_quoteIdent c.name) schema.columns))
  have htable := (hcolumns.fixed hfrom).item (reads_quoteIdent schema.table)
  have hbound := (((htable.fixed hwhere).item reads_blockNumberColumn).fixed hle).item
    (b.reads_placeholder 1)
  have htiebreak := (((hbound.fixed horder).item reads_blockNumberColumn).fixed hasc).item
    b.reads_tiebreak
  have hall := htiebreak.append (.of_word (s := " ASC") "ASC".toList rfl rfl) (by decide)
  simp only [List.append_assoc] at hall ⊢
  exact hall

/-- The tokens of the reference to a table. -/
def tableRefTokens (table : String) : Option String → List Lexeme
  | some schema => [quoted schema, .symbol '.', quoted table]
  | none => [quoted table]

theorem reads_rangeQuery (table : String) (schema : Option String) :
    Reads (Query.rangeQuery b table schema) ([keyword "SELECT", .symbol '*', keyword "FROM"]
      ++ tableRefTokens table schema
      ++ [keyword "WHERE", quoted "block_number", keyword "BETWEEN", b.placeholderToken 1,
        keyword "AND", b.placeholderToken 2, keyword "ORDER", keyword "BY", quoted "block_number",
        keyword "ASC", .symbol ',', keyword b.tiebreak, keyword "ASC", keyword "LIMIT",
        b.placeholderToken 3, keyword "OFFSET", b.placeholderToken 4]) := by
  have hstart : ReadsOpen "SELECT * FROM " [keyword "SELECT", .symbol '*', keyword "FROM"] :=
    ⟨rfl, rfl⟩
  have hdot : Fixed "." [.symbol '.'] := by decide
  have hwhere : Fixed " WHERE " [keyword "WHERE"] := by decide
  have hbetween : Fixed " BETWEEN " [keyword "BETWEEN"] := by decide
  have hand : Fixed " AND " [keyword "AND"] := by decide
  have horder : Fixed " ORDER BY " [keyword "ORDER", keyword "BY"] := by decide
  have hasc : Fixed " ASC, " [keyword "ASC", .symbol ','] := by decide
  have hlimit : Fixed " ASC LIMIT " [keyword "ASC", keyword "LIMIT"] := by decide
  have hoffset : Fixed " OFFSET " [keyword "OFFSET"] := by decide
  have hblock := reads_quoteIdent blockNumberColumn
  have href : Reads (match schema with
      | some schema => quoteIdent schema ++ "." ++ quoteIdent table
      | none => quoteIdent table) (tableRefTokens table schema) := by
    cases schema with
    | none => exact reads_quoteIdent table
    | some schema => exact ((reads_quoteIdent schema).fixed hdot).item (reads_quoteIdent table)
  have hfirst := ((((hstart.item href).fixed hwhere).item hblock).fixed hbetween).item
    (b.reads_placeholder 1)
  have hrange := (hfirst.fixed hand).item (b.reads_placeholder 2)
  have hsorted := (((hrange.fixed horder).item hblock).fixed hasc).item b.reads_tiebreak
  have hlimited := (hsorted.fixed hlimit).item (b.reads_placeholder 3)
  have hall := (hlimited.fixed hoffset).item (b.reads_placeholder 4)
  simp only [List.append_assoc] at hall ⊢
  exact hall

/-! ### What the texts say besides the names -/

theorem erase_columnTokens (columns : List Column) :
    (columns.map (columnTokens b)).map (·.map Lexeme.erase)
      = (columns.map Column.ty).map fun ty => .ident [] :: (b.typeTokens ty).map Lexeme.erase := by
  rw [List.map_map, List.map_map]
  rfl

theorem erase_names (columns : List Column) :
    (columns.map fun c => [quoted c.name]).map (·.map Lexeme.erase)
      = List.replicate columns.length [.ident []] := by
  rw [List.map_map, ← List.map_const']
  rfl

theorem skeleton_createEventTable {schema schema' : TableSchema}
    (h : schema.columns.map Column.ty = schema'.columns.map Column.ty) :
    skeleton (Query.createEventTable schema b) = skeleton (Query.createEventTable schema' b) := by
  unfold skeleton tokens
  rw [(reads_createEventTable b schema).lex, (reads_createEventTable b schema').lex]
  simp only [List.map_append, map_intercalate, List.map_cons, erase_columnTokens, h, erase_quoted]

theorem skeleton_insertStatement {schema schema' : TableSchema}
    (h : schema.columns.length = schema'.columns.length) (rows : Nat) :
    skeleton (Query.insertStatement schema b rows)
      = skeleton (Query.insertStatement schema' b rows) := by
  unfold skeleton tokens
  rw [(reads_insertStatement b schema rows).lex, (reads_insertStatement b schema' rows).lex]
  simp only [List.map_append, map_intercalate, List.map_cons, erase_names, h, erase_quoted]

theorem skeleton_replayQuery {schema schema' : TableSchema}
    (h : schema.columns.length = schema'.columns.length) :
    skeleton (Query.replayQuery schema b) = skeleton (Query.replayQuery schema' b) := by
  unfold skeleton tokens
  rw [(reads_replayQuery b schema).lex, (reads_replayQuery b schema').lex]
  simp only [List.map_append, map_intercalate, List.map_cons, erase_names, h, erase_quoted]

/-- Whether the table is pinned to a schema is part of the query; which one is not. -/
theorem skeleton_rangeQuery (table table' : String) {schema schema' : Option String}
    (h : schema.isSome = schema'.isSome) :
    skeleton (Query.rangeQuery b table schema) = skeleton (Query.rangeQuery b table' schema') := by
  have href : (tableRefTokens table schema).map Lexeme.erase
      = (tableRefTokens table' schema').map Lexeme.erase := by
    cases schema <;> cases schema'
    · rfl
    · exact nomatch h
    · exact nomatch h
    · rfl
  unfold skeleton tokens
  rw [(reads_rangeQuery b table schema).lex, (reads_rangeQuery b table' schema').lex]
  simp only [List.map_append, href]

/-! ### What the names are read as -/

theorem identName_columnTokens (c : Column) :
    (columnTokens b c).filterMap identName = [c.name] := by
  simp only [columnTokens, List.filterMap_cons, identName_quoted, Backend.identName_typeTokens]

theorem identName_groupTokens (columns row : Nat) :
    (groupTokens b columns row).filterMap identName = [] := by
  have hitem : ∀ i, [b.placeholderToken (row * columns + i)].filterMap identName = [] := by
    intro i
    rw [List.filterMap_cons, Backend.identName_token]
    rfl
  unfold groupTokens
  rw [List.filterMap_append, List.filterMap_append, filterMap_intercalate _ rfl,
    flatMap_items hitem, List.flatMap_eq_nil_iff.mpr fun _ _ => rfl]
  rfl

theorem identName_names (c : Column) : [quoted c.name].filterMap identName = [c.name] := by
  rw [List.filterMap_cons, identName_quoted]
  rfl

theorem identifiers_createEventTable : identifiers (Query.createEventTable schema b)
    = schema.table :: schema.columns.map Column.name := by
  unfold identifiers tokens
  rw [(reads_createEventTable b schema).lex, List.filterMap_append, List.filterMap_append,
    filterMap_intercalate _ rfl, List.flatMap_cons, flatMap_items (identName_columnTokens b),
    List.map_eq_flatMap]
  simp only [blockTokens, List.filterMap_cons, List.filterMap_append, List.filterMap_nil,
    identName_quoted, identName_keyword, identName_symbol, Backend.identName_typeTokens,
    List.append_nil, List.nil_append, List.cons_append]

theorem identifiers_insertStatement (rows : Nat) :
    identifiers (Query.insertStatement schema b rows)
      = schema.table :: schema.columns.map Column.name := by
  unfold identifiers tokens
  rw [(reads_insertStatement b schema rows).lex, List.filterMap_append, List.filterMap_append,
    List.filterMap_append, filterMap_intercalate _ rfl, filterMap_intercalate _ rfl,
    List.flatMap_cons, flatMap_items identName_names, flatMap_items (identName_groupTokens b _),
    List.flatMap_eq_nil_iff.mpr fun _ _ => rfl, List.map_eq_flatMap]
  simp only [List.filterMap_cons, List.filterMap_nil, identName_quoted, identName_keyword,
    identName_symbol, List.append_nil, List.nil_append, List.cons_append]

theorem identifiers_replayQuery : identifiers (Query.replayQuery schema b)
    = schema.columns.map Column.name ++ [schema.table] := by
  unfold identifiers tokens
  rw [(reads_replayQuery b schema).lex, List.filterMap_append, List.filterMap_append,
    filterMap_intercalate _ rfl, flatMap_items identName_names, List.map_eq_flatMap]
  simp only [List.filterMap_cons, List.filterMap_nil, identName_quoted, identName_keyword,
    identName_symbol, Backend.identName_token, List.nil_append]

theorem identifiers_rangeQuery (table : String) (schema : Option String) :
    identifiers (Query.rangeQuery b table schema)
      = schema.toList ++ [table, blockNumberColumn, blockNumberColumn] := by
  unfold identifiers tokens
  rw [(reads_rangeQuery b table schema).lex, List.filterMap_append, List.filterMap_append]
  cases schema <;>
    simp only [tableRefTokens, List.filterMap_cons, List.filterMap_nil, identName_quoted,
      identName_keyword, identName_symbol, Backend.identName_token, List.nil_append,
      List.cons_append, Option.toList] <;> rfl

/-! ### No statement is ended or cut off -/

/-- The token neither ends the statement nor is cut off by the end of the text. -/
def inside : Lexeme → Bool
  | .symbol c => decide (c ≠ ';')
  | .unterminated => false
  | _ => true

@[simp] theorem inside_quoted (name : String) : inside (quoted name) = true := rfl

@[simp] theorem inside_keyword (text : String) : inside (keyword text) = true := rfl

@[simp] theorem inside_symbol (c : Char) : inside (.symbol c) = decide (c ≠ ';') := rfl

@[simp] theorem inside_placeholder (n : Nat) : inside (b.placeholderToken n) = true := by
  cases b <;> rfl

@[simp] theorem inside_typeTokens (ty : SqlType) : (b.typeTokens ty).all inside = true := by
  cases b <;> cases ty <;> rfl

theorem inside_createEventTable :
    (tokens (Query.createEventTable schema b)).all inside = true := by
  have hparts : ∀ part ∈ blockTokens b :: schema.columns.map (columnTokens b),
      part.all inside = true := by
    refine List.forall_mem_cons.mpr ⟨?_, List.forall_mem_map.mpr fun c _ => ?_⟩
    · simp only [blockTokens, List.all_cons, List.all_append, inside_typeTokens, inside_keyword,
        List.all_nil, Bool.and_true]
    · simp only [columnTokens, List.all_cons, inside_quoted, inside_typeTokens, Bool.and_true]
  unfold tokens
  rw [(reads_createEventTable b schema).lex, List.all_append, List.all_append,
    all_intercalate rfl hparts]
  rfl

theorem inside_groupTokens (columns row : Nat) :
    (groupTokens b columns row).all inside = true := by
  have hparts : ∀ part ∈ (List.range' 1 columns).map fun i =>
      [b.placeholderToken (row * columns + i)], part.all inside = true :=
    List.forall_mem_map.mpr fun i _ => by
      rw [List.all_cons, inside_placeholder]
      rfl
  unfold groupTokens
  rw [List.all_append, List.all_append, all_intercalate rfl hparts]
  rfl

theorem inside_names (columns : List Column) :
    ∀ part ∈ columns.map fun c => [quoted c.name], part.all inside = true :=
  List.forall_mem_map.mpr fun _ _ => rfl

theorem inside_insertStatement (rows : Nat) :
    (tokens (Query.insertStatement schema b rows)).all inside = true := by
  have htarget : ∀ part ∈ [keyword "block_number"] :: schema.columns.map fun c => [quoted c.name],
      part.all inside = true := List.forall_mem_cons.mpr ⟨rfl, inside_names schema.columns⟩
  have hgroups : ∀ part ∈ (List.range rows).map (groupTokens b (1 + schema.columns.length)),
      part.all inside = true := List.forall_mem_map.mpr fun row _ => inside_groupTokens b _ row
  unfold tokens
  rw [(reads_insertStatement b schema rows).lex, List.all_append, List.all_append, List.all_append,
    all_intercalate rfl htarget, all_intercalate rfl hgroups]
  rfl

theorem inside_replayQuery : (tokens (Query.replayQuery schema b)).all inside = true := by
  unfold tokens
  rw [(reads_replayQuery b schema).lex, List.all_append, List.all_append,
    all_intercalate rfl (inside_names schema.columns)]
  cases b <;> rfl

theorem inside_rangeQuery (table : String) (schema : Option String) :
    (tokens (Query.rangeQuery b table schema)).all inside = true := by
  unfold tokens
  rw [(reads_rangeQuery b table schema).lex]
  cases b <;> cases schema <;> rfl

end Statements

/-! ### The names -/

/-- The skeleton of each statement does not depend on the names in it, whatever characters they are
made of; the identifiers that the text is read as are these names, in the order of the schema; and
the text is one statement to its end. -/
theorem identifiers_contained (b : Backend) :
    Function.Injective quoteIdent ∧
    (∀ schema schema' : TableSchema,
      schema.columns.map Column.ty = schema'.columns.map Column.ty →
      skeleton (Query.createEventTable schema b) = skeleton (Query.createEventTable schema' b)) ∧
    (∀ schema schema' : TableSchema, schema.columns.length = schema'.columns.length →
      (∀ rows, skeleton (Query.insertStatement schema b rows)
        = skeleton (Query.insertStatement schema' b rows)) ∧
      skeleton (Query.replayQuery schema b) = skeleton (Query.replayQuery schema' b)) ∧
    (∀ (table table' : String) (schema schema' : Option String),
      schema.isSome = schema'.isSome →
      skeleton (Query.rangeQuery b table schema) = skeleton (Query.rangeQuery b table' schema')) ∧
    (∀ schema : TableSchema,
      identifiers (Query.createEventTable schema b)
        = schema.table :: schema.columns.map Column.name ∧
      (∀ rows, identifiers (Query.insertStatement schema b rows)
        = schema.table :: schema.columns.map Column.name) ∧
      identifiers (Query.replayQuery schema b)
        = schema.columns.map Column.name ++ [schema.table]) ∧
    (∀ (table : String) (schema : Option String),
      identifiers (Query.rangeQuery b table schema)
        = schema.toList ++ [table, blockNumberColumn, blockNumberColumn]) ∧
    (∀ schema : TableSchema,
      (tokens (Query.createEventTable schema b)).all inside = true ∧
      (∀ rows, (tokens (Query.insertStatement schema b rows)).all inside = true) ∧
      (tokens (Query.replayQuery schema b)).all inside = true) ∧
    (∀ (table : String) (schema : Option String),
      (tokens (Query.rangeQuery b table schema)).all inside = true) := by
  refine ⟨quoteIdent_injective, fun _ _ h => skeleton_createEventTable b h, fun _ _ h =>
    ⟨skeleton_insertStatement b h, skeleton_replayQuery b h⟩, fun table table' _ _ h =>
    skeleton_rangeQuery b table table' h, fun schema => ?_, identifiers_rangeQuery b,
    fun schema => ?_, inside_rangeQuery b⟩
  · exact ⟨identifiers_createEventTable b schema, identifiers_insertStatement b schema,
      identifiers_replayQuery b schema⟩
  · exact ⟨inside_createEventTable b schema, inside_insertStatement b schema,
      inside_replayQuery b schema⟩

/-- A table whose name would end the statement, if it were not quoted. -/
def hostileSchema : TableSchema :=
  ⟨"t\"; DROP TABLE transfer; --", [⟨"\"\"", .text⟩, ⟨"/* ' ?", .integer⟩]⟩

def harmlessSchema : TableSchema := ⟨"transfer", [⟨"value", .text⟩, ⟨"from", .text⟩]⟩

theorem identifiers_contained_hostile :
    skeleton (Query.insertStatement hostileSchema .postgres 2)
        = skeleton (Query.insertStatement harmlessSchema .postgres 2) ∧
      identifiers (Query.insertStatement hostileSchema .postgres 2)
        = ["t\"; DROP TABLE transfer; --", "\"\"", "/* ' ?"] := by
  obtain ⟨-, -, hskeleton, -, hnames, -⟩ := identifiers_contained .postgres
  exact ⟨(hskeleton hostileSchema harmlessSchema rfl).1 2, (hnames hostileSchema).2.1 2⟩

end ArtemisLight
