import Mathlib.Data.List.Forall2
import ArtemisLight.Persistence.Record

/-!
# The freeze contract of a record

Column types are fixed once, by an override or by the first encoded event, and every later event is
to fit them.  `encode` checks one misfit only, text for an `INTEGER` column, so the contract holds
of a run exactly when no event brings another misfit without that one (`freezeContract_iff`).
-/

namespace ArtemisLight

/-! ### Cells and columns -/

/-- Whether a strictly typed backend binds a cell to a column of a type. -/
def SqlType.Admits (ty : SqlType) : SqlValue → Prop
  | .null => True
  | .text _ => ty = .text ∨ ty = .numeric
  | .real _ => ty ≠ .integer ∧ ty ≠ .blob
  | .integer _ => ty ≠ .blob
  | .blob _ => ty = .blob

instance (ty : SqlType) : (value : SqlValue) → Decidable (ty.Admits value)
  | .null => .isTrue trivial
  | .text _ => inferInstanceAs (Decidable (ty = .text ∨ ty = .numeric))
  | .real _ => inferInstanceAs (Decidable (ty ≠ .integer ∧ ty ≠ .blob))
  | .integer _ => inferInstanceAs (Decidable (ty ≠ .blob))
  | .blob _ => inferInstanceAs (Decidable (ty = .blob))

/-- Whether a cell is one that `ensureValueFits` rejects. -/
def Column.Rejects (column : Column) (value : SqlValue) : Prop :=
  column.ty = .integer ∧ ∃ text, value = .text text

/-- The columns and cells of a row, one for one, each cell admitted. -/
def Fits (columns : List Column) (cells : List SqlValue) : Prop :=
  List.Forall₂ (fun column cell => column.ty.Admits cell) columns cells

variable {E : Type} [SerdeJson E]

/-- The types guessed for a value admit the cell it is converted to. -/
theorem inferType_admits (value : Value) : (inferType value).Admits (jsonToSql E value) := by
  cases value with
  | null => trivial
  | bool b => simp [inferType, jsonToSql, SqlType.Admits]
  | number n =>
    cases n with
    | posInt u =>
      unfold inferType jsonToSql
      by_cases hu : u ≤ i64Max
      · simp [hu, SqlType.Admits]
      · simp [hu, SqlType.Admits]
    | negInt i => simp [inferType, jsonToSql, SqlType.Admits]
    | float bits => simp [inferType, jsonToSql, SqlType.Admits]
  | string s => simp [inferType, jsonToSql, SqlType.Admits]
  | array values => simp [inferType, jsonToSql, SqlType.Admits]
  | object fields => simp [inferType, jsonToSql, SqlType.Admits]

theorem not_rejects_of_admits {column : Column} {value : SqlValue} (h : column.ty.Admits value) :
    ¬ column.Rejects value := by
  rintro ⟨hty, text, rfl⟩
  rcases h with h | h <;> exact absurd (hty.symm.trans h) (by decide)

theorem ensureValueFits_eq_ok {column : Column} {value : SqlValue} (h : ¬ column.Rejects value) :
    ensureValueFits column value = .ok () := by
  unfold ensureValueFits
  split
  · rename_i text
    rw [if_neg fun hty => h ⟨hty, text, rfl⟩]
  · rfl

theorem ensureValueFits_eq_error {column : Column} {value : SqlValue} (h : column.Rejects value) :
    ∃ e, ensureValueFits column value = .error e := by
  obtain ⟨hty, text, rfl⟩ := h
  exact ⟨_, if_pos hty⟩

/-! ### The cells of an event -/

/-- The JSON library's objects list every field name once. -/
class LawfulSerdeJson (E : Type) [SerdeJson E] : Prop where
  names_nodup : ∀ {event : E} {fields : List (String × Value)},
    SerdeJson.toValue event = .ok (.object fields) → (fields.map Prod.fst).Nodup

namespace Record

/-- The top-level fields of an event that serialises to an object. -/
def eventFields (event : E) : Except Error (List (String × SqlType × SqlValue)) :=
  match SerdeJson.toValue event with
  | .error _ => .error "event is not serialisable to JSON"
  | .ok json => fieldMap E json

/-- The cell of one column before it is checked. -/
def cellOf (fields : List (String × SqlType × SqlValue)) (column : Column) : SqlValue :=
  ((fields.lookup column.name).map Prod.snd).getD .null

theorem encodeCell_eq_ok {fields : List (String × SqlType × SqlValue)} {column : Column}
    (h : ¬ column.Rejects (cellOf fields column)) :
    encodeCell fields column = .ok (cellOf fields column) := by
  have hfits := ensureValueFits_eq_ok h
  unfold cellOf at hfits ⊢
  unfold encodeCell
  simp only [hfits]

theorem encodeCell_eq_error {fields : List (String × SqlType × SqlValue)} {column : Column}
    (h : column.Rejects (cellOf fields column)) : ∃ e, encodeCell fields column = .error e := by
  obtain ⟨e, he⟩ := ensureValueFits_eq_error h
  unfold cellOf at he
  unfold encodeCell
  simp only [he]
  exact ⟨e, rfl⟩

/-- Cells none of which is rejected are all returned. -/
theorem mapM_encodeCell_ok {fields : List (String × SqlType × SqlValue)} {columns : List Column}
    (h : ∀ column ∈ columns, ¬ column.Rejects (cellOf fields column)) :
    columns.mapM (encodeCell fields) = .ok (columns.map (cellOf fields)) := by
  induction columns with
  | nil => rfl
  | cons column columns ih =>
    rw [List.mapM_cons, encodeCell_eq_ok (h column List.mem_cons_self),
      ih fun c hc => h c (List.mem_cons_of_mem column hc)]
    rfl

/-- One rejected cell fails the row. -/
theorem mapM_encodeCell_error {fields : List (String × SqlType × SqlValue)} {columns : List Column}
    (h : ∃ column ∈ columns, column.Rejects (cellOf fields column)) :
    ∃ e, columns.mapM (encodeCell fields) = .error e := by
  induction columns with
  | nil => exact absurd h (by simp)
  | cons column columns ih =>
    rw [List.mapM_cons]
    by_cases hc : column.Rejects (cellOf fields column)
    · obtain ⟨e, he⟩ := encodeCell_eq_error hc
      exact ⟨e, by rw [he]; rfl⟩
    · obtain ⟨c, hcm, hr⟩ := h
      have htail : ∃ c ∈ columns, c.Rejects (cellOf fields c) := by
        rcases List.mem_cons.mp hcm with rfl | hcm
        · exact absurd hr hc
        · exact ⟨c, hcm, hr⟩
      obtain ⟨e, he⟩ := ih htail
      exact ⟨e, by rw [encodeCell_eq_ok hc, he]; rfl⟩

/-- The columns inferred from an event's own fields. -/
def inferredColumns (fields : List (String × SqlType × SqlValue)) : List Column :=
  fields.map fun f => ⟨f.1, f.2.1⟩

/-- The field that a reserved name belongs to. -/
def ReservedField (fields : List (String × SqlType × SqlValue)) : Prop :=
  ∃ f ∈ fields, f.1 = blockNumberColumn ∨ f.1 = payloadColumn

/-- An event's own cells fit the columns inferred from it. -/
theorem admits_inferredColumns [LawfulSerdeJson E] {event : E}
    {fields : List (String × SqlType × SqlValue)} (h : eventFields event = .ok fields) :
    ∀ column ∈ inferredColumns fields, column.ty.Admits (cellOf fields column) := by
  unfold eventFields at h
  split at h
  · exact nomatch h
  rename_i json hjson
  cases json with
  | object values =>
    obtain rfl := Except.ok.inj h
    have hnodup := LawfulSerdeJson.names_nodup hjson
    intro column hcolumn
    simp only [inferredColumns, List.mem_map, List.map_map, Function.comp_def] at hcolumn
    obtain ⟨⟨name, value⟩, hmem, rfl⟩ := hcolumn
    -- each name stands once, so the field that is looked up is the column's own
    have hlookup : (values.map fun f => (f.1, inferType f.2, jsonToSql E f.2)).lookup name
        = some (inferType value, jsonToSql E value) := by
      clear hjson h
      induction values with
      | nil => exact absurd hmem (by simp)
      | cons f values ih =>
        rw [List.map_cons, List.nodup_cons] at hnodup
        rw [List.map_cons, List.lookup_cons]
        rcases List.mem_cons.mp hmem with rfl | hmem
        · simp
        · have hne : name ≠ f.1 := by
            rintro rfl
            exact hnodup.1 (List.mem_map.mpr ⟨_, hmem, rfl⟩)
          rw [beq_false_of_ne hne]
          exact ih hnodup.2 hmem
    unfold cellOf
    rw [hlookup]
    exact inferType_admits value
  | null => exact nomatch h
  | bool _ => exact nomatch h
  | number _ => exact nomatch h
  | string _ => exact nomatch h
  | array _ => exact nomatch h

/-! ### One encode -/

/-- The rows that are returned for the event fit the columns frozen by then, and a value that does
not fit is rejected. -/
structure Keeps (r : Record) (event : E) : Prop where
  fits : ∀ row r', r.encode event = (.ok row, r') →
    ∃ schema, r'.schema = some schema ∧ Fits schema.columns row.cells
  rejects : ∀ columns fields, r.frozen = some columns → eventFields event = .ok fields →
    (∃ column ∈ columns, ¬ column.ty.Admits (cellOf fields column)) →
      ∃ e, (r.encode event).1 = .error e
  /-- The first event that serialises encodes. -/
  first : ∀ fields, r.frozen = none → eventFields event = .ok fields → ¬ ReservedField fields →
    ∃ row, (r.encode event).1 = .ok row

/-- If the event has a cell that its frozen column does not admit, it has text for an `INTEGER`
column as well. -/
def Guarded (r : Record) (event : E) : Prop :=
  ∀ columns fields, r.frozen = some columns → eventFields event = .ok fields →
    (∃ column ∈ columns, ¬ column.ty.Admits (cellOf fields column)) →
      ∃ column ∈ columns, column.Rejects (cellOf fields column)

/-- An event with its cells at hand encodes. -/
theorem encode_of_cells {r r' : Record} {event : E} {fields : List (String × SqlType × SqlValue)}
    {columns : List Column} {values : List SqlValue} (h : eventFields event = .ok fields)
    (hfreeze : r.freezeColumns fields = (.ok columns, r'))
    (hcells : columns.mapM (encodeCell fields) = .ok values) :
    ∃ row, (r.encode event).1 = .ok row := by
  unfold eventFields at h
  split at h
  · exact nomatch h
  · rename_i json hjson
    unfold encode
    simp only [hjson, h, hfreeze, hcells]
    exact ⟨_, rfl⟩

/-- An event with a rejected cell does not encode. -/
theorem encode_of_rejected {r r' : Record} {event : E} {fields : List (String × SqlType × SqlValue)}
    {columns : List Column} {e : Error} (h : eventFields event = .ok fields)
    (hfreeze : r.freezeColumns fields = (.ok columns, r'))
    (hcells : columns.mapM (encodeCell fields) = .error e) : (r.encode event).1 = .error e := by
  unfold eventFields at h
  split at h
  · exact nomatch h
  · rename_i json hjson
    unfold encode
    simp only [hjson, h, hfreeze, hcells]

/-- Without a reserved field the columns freeze from the event. -/
theorem freezeColumns_first {r : Record} (hr : r.frozen = none)
    {fields : List (String × SqlType × SqlValue)} (h : ¬ ReservedField fields) :
    ∃ r', r.freezeColumns fields = (.ok (inferredColumns fields), r') := by
  have hfind : fields.find? (fun f => f.1 = blockNumberColumn || f.1 = payloadColumn) = none := by
    rw [List.find?_eq_none]
    intro f hf hname
    simp only [Bool.or_eq_true, decide_eq_true_eq] at hname
    exact h ⟨f, hf, hname⟩
  unfold freezeColumns
  rw [hr, hfind]
  exact ⟨_, rfl⟩

/-- A reserved field is refused, and freezes nothing. -/
theorem freezeColumns_reserved {r : Record} (hr : r.frozen = none)
    {fields : List (String × SqlType × SqlValue)} (h : ReservedField fields) :
    ∃ e, r.freezeColumns fields = (.error e, r) := by
  obtain ⟨f, hf, hname⟩ := h
  have hsome : (fields.find? fun f => f.1 = blockNumberColumn || f.1 = payloadColumn).isSome := by
    rw [List.find?_isSome]
    exact ⟨f, hf, by simpa using hname⟩
  obtain ⟨g, hg⟩ := Option.isSome_iff_exists.mp hsome
  unfold freezeColumns
  rw [hr, hg]
  exact ⟨_, rfl⟩

/-- The columns that a successful encode goes by: the frozen ones, or its own. -/
theorem freezeColumns_cases {r r' : Record} {fields : List (String × SqlType × SqlValue)}
    {columns : List Column} (h : r.freezeColumns fields = (.ok columns, r')) :
    r.frozen = some columns ∨ r.frozen = none ∧ columns = inferredColumns fields := by
  rcases hr : r.frozen with _ | cs
  · refine Or.inr ⟨rfl, ?_⟩
    unfold freezeColumns at h
    rw [hr] at h
    dsimp only at h
    split at h
    · exact nomatch (Prod.mk.inj h).1
    · exact (Except.ok.inj (Prod.mk.inj h).1).symm
  · rw [freezeColumns_of_frozen hr] at h
    exact Or.inl (congrArg some (Except.ok.inj (Prod.mk.inj h).1))

/-- A row whose cells are admitted fits the write schema. -/
theorem fits_row {columns : List Column} {fields : List (String × SqlType × SqlValue)}
    (text : String)
    (h : ∀ column ∈ columns, column.ty.Admits (cellOf fields column)) :
    Fits (columns ++ [⟨payloadColumn, .text⟩]) (columns.map (cellOf fields) ++ [.text text]) := by
  induction columns with
  | nil => exact List.Forall₂.cons (Or.inl rfl) List.Forall₂.nil
  | cons column columns ih =>
    exact List.Forall₂.cons (h column List.mem_cons_self)
      (ih fun c hc => h c (List.mem_cons_of_mem column hc))

/-- A guarded event keeps the contract. -/
theorem Guarded.keeps [LawfulSerdeJson E] {r : Record} {event : E} (h : r.Guarded event) :
    r.Keeps event where
  fits row r' henc := by
    obtain ⟨json, fields, columns, values, hjson, hfields, hfreeze, hcells, rfl⟩ := encode_ok henc
    have hevent : eventFields event = .ok fields := by
      unfold eventFields
      rw [hjson]
      exact hfields
    have hpass : ∀ column ∈ columns, ¬ column.Rejects (cellOf fields column) := by
      intro column hc hrej
      obtain ⟨e, he⟩ := mapM_encodeCell_error ⟨column, hc, hrej⟩
      exact nomatch he.symm.trans hcells
    have hadmit : ∀ column ∈ columns, column.ty.Admits (cellOf fields column) := by
      rcases freezeColumns_cases hfreeze with hr | ⟨-, rfl⟩
      · intro column hc
        by_contra hbad
        obtain ⟨c, hcm, hrej⟩ := h columns fields hr hevent ⟨column, hc, hbad⟩
        exact hpass c hcm hrej
      · exact admits_inferredColumns hevent
    rw [mapM_encodeCell_ok hpass] at hcells
    obtain rfl := Except.ok.inj hcells
    refine ⟨⟨r'.table, columns ++ [⟨payloadColumn, .text⟩]⟩, ?_, fits_row _ hadmit⟩
    unfold schema
    rw [(freezeColumns_ok hfreeze).1]
    rfl
  rejects columns fields hr hevent hbad := by
    obtain ⟨e, he⟩ := mapM_encodeCell_error (h columns fields hr hevent hbad)
    exact ⟨e, encode_of_rejected hevent (freezeColumns_of_frozen hr fields) he⟩
  first fields hr hevent hreserved := by
    obtain ⟨r', hfreeze⟩ := freezeColumns_first hr hreserved
    have hcells := mapM_encodeCell_ok fun column hc =>
      not_rejects_of_admits (admits_inferredColumns hevent column hc)
    exact encode_of_cells hevent hfreeze hcells

/-- An event that keeps the contract is guarded. -/
theorem Keeps.guarded {r : Record} {event : E} (h : r.Keeps event) : r.Guarded event := by
  intro columns fields hr hevent hbad
  by_contra hno
  have hpass : ∀ column ∈ columns, ¬ column.Rejects (cellOf fields column) :=
    fun column hc hrej => hno ⟨column, hc, hrej⟩
  obtain ⟨e, he⟩ := h.rejects columns fields hr hevent hbad
  obtain ⟨row, hrow⟩ := encode_of_cells hevent (freezeColumns_of_frozen hr fields)
    (mapM_encodeCell_ok hpass)
  exact nomatch hrow.symm.trans he

/-! ### A run -/

/-- The record after a sequence of events has been passed to `encode`. -/
def encodeAll (r : Record) (events : List E) : Record := events.foldl (fun r e => (r.encode e).2) r

/-- The freeze contract along a sequence of events: each event keeps it, and columns that are frozen
stay as they are. -/
structure FreezeContract (r : Record) (events : List E) : Prop where
  keeps : ∀ done event rest, events = done ++ event :: rest → (r.encodeAll done).Keeps event
  stays : ∀ done more columns, done ++ more <+: events → (r.encodeAll done).frozen = some columns →
    (r.encodeAll (done ++ more)).frozen = some columns

/-- Frozen columns are never frozen again. -/
theorem frozen_encodeAll {r : Record} {columns : List Column} (h : r.frozen = some columns)
    (events : List E) : r.encodeAll events = r := by
  induction events with
  | nil => rfl
  | cons event events ih =>
    have hstep : (r.encode event).2 = r := (encode_record rfl).2 (by rw [h]; rfl)
    show (r.encode event).2.encodeAll events = r
    rw [hstep, ih]

theorem encodeAll_append (r : Record) (events events' : List E) :
    r.encodeAll (events ++ events') = (r.encodeAll events).encodeAll events' := List.foldl_append

/-- The freeze contract holds of a run exactly when every event with a value that its column does
not admit also brings text for an `INTEGER` column, which is the one misfit that is looked for. -/
theorem freezeContract_iff [LawfulSerdeJson E] (r : Record) (events : List E) :
    r.FreezeContract events ↔ ∀ done event rest, events = done ++ event :: rest →
      (r.encodeAll done).Guarded event := by
  constructor
  · exact fun h done event rest hsplit => (h.keeps done event rest hsplit).guarded
  · intro h
    refine ⟨fun done event rest hsplit => (h done event rest hsplit).keeps, ?_⟩
    intro done more columns _ hfrozen
    rw [encodeAll_append, frozen_encodeAll hfrozen]
    exact hfrozen

end Record

/-! ### Readings whose amount changes its shape -/

/-- An event with one numeric field. -/
structure Reading where
  amount : Number
  deriving DecidableEq, Repr

namespace Reading

instance : SerdeJson Reading where
  toValue e := .ok (.object [("amount", .number e.amount)])
  text _ := ""
  fromStr _ := .error "missing field amount"

instance : LawfulSerdeJson Reading where
  names_nodup h := by
    obtain rfl := Value.object.inj (Except.ok.inj h)
    exact List.nodup_singleton _

/-- A record that infers its one column from the first reading. -/
def record : Record := .inferred "readings"

end Reading

/-- The amount 1.5 reaches the `INTEGER` column that the amount 7 has frozen. -/
theorem real_in_integer_column :
    ¬ Reading.record.FreezeContract [⟨.posInt 7⟩, (⟨.float 0x3FF8000000000000⟩ : Reading)] := by
  intro h
  obtain ⟨schema, hschema, hfits⟩ :=
    (h.keeps [⟨.posInt 7⟩] ⟨.float 0x3FF8000000000000⟩ [] rfl).fits _ _ rfl
  obtain rfl := Option.some.inj hschema
  obtain ⟨hreal, -⟩ := List.forall₂_cons.mp hfits
  exact hreal.1 rfl

/-- Readings that are integers throughout keep the contract. -/
theorem integers_keep_contract :
    Reading.record.FreezeContract [⟨.posInt 7⟩, (⟨.posInt 8⟩ : Reading)] := by
  refine (Record.freezeContract_iff _ _).mpr fun done event rest hsplit columns fields hr hf hbad =>
    ?_
  obtain ⟨column, hc, hbad⟩ := hbad
  rcases done with _ | ⟨d, _ | ⟨d', done⟩⟩
  · exact nomatch hr
  · obtain ⟨rfl, htail⟩ := List.cons.inj hsplit
    obtain ⟨rfl, -⟩ := List.cons.inj htail
    obtain rfl := Option.some.inj hr
    obtain rfl := Except.ok.inj hf
    obtain rfl := List.mem_singleton.mp hc
    exact absurd (by decide) hbad
  · simp at hsplit

end ArtemisLight
