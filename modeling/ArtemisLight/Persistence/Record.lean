import Mathlib.Data.List.Basic
import ArtemisLight.Lib.Machine
import ArtemisLight.Persistence.RecordOps

/-!
# Records

A `Record` owns the table name, the column schema (declared by an override or frozen from the first
encoded event) and both directions of the event/row mapping.  The JSON library is not modelled:
`SerdeJson` names what is used of it.
-/

namespace ArtemisLight

/-- A JSON number; a float is its IEEE 754 bit pattern. -/
inductive Number where
  | posInt (u : Nat)
  | negInt (i : Int)
  | float (bits : UInt64)
  deriving DecidableEq, Repr

/-- A JSON value.  The fields of an object are sorted by name, each name once. -/
inductive Value where
  | null
  | bool (b : Bool)
  | number (n : Number)
  | string (s : String)
  | array (values : List Value)
  | object (fields : List (String × Value))

/-- What is used of the JSON library and of the event type's own serialisation. -/
class SerdeJson (E : Type) where
  /-- `serde_json::to_value` -/
  toValue : E → Except Error Value
  /-- `Value::to_string`, the compact text. -/
  text : Value → String
  /-- `serde_json::from_str` -/
  fromStr : String → Except Error E

/-- Where a record's event-field columns come from. -/
inductive ColumnsSource where
  | declared (columns : List Column)
  /-- Inferred from the first successfully encoded event, then frozen. -/
  | inferred (frozen : Option (List Column))
  deriving DecidableEq

/-- The mapping between an event type and its SQL rows. -/
structure Record where
  table : String
  columns : ColumnsSource
  deriving DecidableEq

/-- Err when the schema collides with identifiers the persistence layer itself uses. -/
def TableSchema.ensureNoReservedNames (schema : TableSchema) : Except String Unit :=
  if schema.table = progressTable then
    .error s!"table name {repr progressTable} is reserved for the store's internal bookkeeping"
  else
    match schema.columns.find? fun c => c.name = blockNumberColumn || c.name = payloadColumn with
    | some column => .error s!"column name {repr column.name} is reserved for an implicit column the persistence layer adds to every table"
    | none => .ok ()

/-- Best-guess SQL type for a serialised field value. -/
def inferType : Value → SqlType
  | .bool _ => .integer
  | .number (.posInt u) => if u ≤ i64Max then .integer else .text
  | .number (.negInt _) => .integer
  | .number (.float _) => .real
  | .string _ => .text
  | _ => .text

section Encode

variable {E : Type} [SerdeJson E]

/-- Convert a serialised field value into a cell. -/
def jsonToSql (E : Type) [SerdeJson E] : Value → SqlValue
  | .null => .null
  | .bool b => .integer (if b then 1 else 0)
  | .number (.posInt u) => if u ≤ i64Max then .integer u else .text (toString u)
  | .number (.negInt i) => .integer i
  | .number (.float bits) => .real bits
  | .string s => .text s
  | other => .text (SerdeJson.text E other)

/-- Map an event's top-level fields to name, best-guess type and value, sorted by field name. -/
def fieldMap (E : Type) [SerdeJson E] : Value → Except Error (List (String × SqlType × SqlValue))
  | .object fields => .ok (fields.map fun f => (f.1, inferType f.2, jsonToSql E f.2))
  | other => .error s!"event must serialise to a JSON object, got {SerdeJson.text E other}"

/-- Reject a value that no longer fits its frozen column type: text in an integer column. -/
def ensureValueFits (column : Column) : SqlValue → Except Error Unit
  | .text text =>
    if column.ty = .integer then
      .error s!"value {repr text} for column {repr column.name} does not fit its frozen INTEGER type (column types freeze from the first encoded event or the declared override; a u64 above i64::MAX encodes as text) — declare the column as TEXT or NUMERIC with a schema override"
    else .ok ()
  | _ => .ok ()

namespace Record

/-- A record writing to the declared table with its declared columns. -/
def declared (schema : TableSchema) : Except Error Record :=
  match schema.ensureNoReservedNames with
  | .error reason => .error s!"invalid schema override: {reason}"
  | .ok () => .ok ⟨schema.table, .declared schema.columns⟩

/-- A record whose columns are inferred from the first encoded event. -/
def inferred (table : String) : Record := ⟨table, .inferred none⟩

/-- The event-field columns, once known. -/
def frozen (r : Record) : Option (List Column) :=
  match r.columns with
  | .declared columns => some columns
  | .inferred lock => lock

/-- The write schema: the event-field columns plus the implicit payload column. -/
def schema (r : Record) : Option TableSchema :=
  r.frozen.map fun columns => ⟨r.table, columns ++ [⟨payloadColumn, .text⟩]⟩

/-- The frozen event-field columns, inferring them from `fields` on the first call when no schema
was declared. -/
def freezeColumns (r : Record) (fields : List (String × SqlType × SqlValue)) :
    Except Error (List Column) × Record :=
  match r.frozen with
  | some columns => (.ok columns, r)
  | none =>
    match fields.find? fun f => f.1 = blockNumberColumn || f.1 = payloadColumn with
    | some f => (.error s!"event field {repr f.1} is reserved for an implicit column the persistence layer adds to every table; rename it with a schema override", r)
    | none =>
      let columns := fields.map fun f => (⟨f.1, f.2.1⟩ : Column)
      (.ok columns, { r with columns := .inferred (some columns) })

/-- The cell of one column: a column with no matching field becomes NULL. -/
def encodeCell (fields : List (String × SqlType × SqlValue)) (column : Column) :
    Except Error SqlValue :=
  let value := ((fields.lookup column.name).map Prod.snd).getD .null
  match ensureValueFits column value with
  | .error e => .error e
  | .ok () => .ok value

/-- Encode one event as a row aligned to the frozen columns, with the event's full JSON appended as
the payload column. -/
def encode (r : Record) (event : E) : Except Error Row × Record :=
  match SerdeJson.toValue event with
  | .error _ => (.error "event is not serialisable to JSON", r)
  | .ok json =>
    match fieldMap E json with
    | .error e => (.error e, r)
    | .ok fields =>
      match r.freezeColumns fields with
      | (.error e, r) => (.error e, r)
      | (.ok columns, r) =>
        match columns.mapM (encodeCell fields) with
        | .error e => (.error e, r)
        | .ok values => (.ok ⟨values ++ [.text (SerdeJson.text E json)]⟩, r)

/-- Reconstruct an event from a stored payload. -/
def decode (_ : Record) (payload : String) : Except Error E :=
  match SerdeJson.fromStr payload with
  | .error _ => .error "stored payload is not valid for this event type"
  | .ok event => .ok event

/-- Freezing answers with the columns the record has from then on. -/
theorem freezeColumns_ok {r r' : Record} {fields : List (String × SqlType × SqlValue)}
    {columns : List Column} (h : r.freezeColumns fields = (.ok columns, r')) :
    r'.frozen = some columns ∧ r'.table = r.table := by
  unfold freezeColumns at h
  rcases hf : r.frozen with _ | cs
  · rw [hf] at h
    simp only at h
    split at h
    · exact absurd h (by simp)
    · simp only [Prod.mk.injEq, Except.ok.injEq] at h
      obtain ⟨rfl, rfl⟩ := h
      exact ⟨rfl, rfl⟩
  · rw [hf] at h
    simp only [Prod.mk.injEq, Except.ok.injEq] at h
    obtain ⟨rfl, rfl⟩ := h
    exact ⟨hf, rfl⟩

theorem freezeColumns_error {r r' : Record} {fields : List (String × SqlType × SqlValue)}
    {e : Error}
    (h : r.freezeColumns fields = (.error e, r')) : r' = r := by
  unfold freezeColumns at h
  rcases hf : r.frozen with _ | cs
  · rw [hf] at h
    simp only at h
    split at h
    · exact (Prod.mk.inj h).2.symm
    · exact absurd h (by simp)
  · rw [hf] at h
    exact absurd h (by simp)

/-- A record with its columns frozen gives them for every event. -/
theorem freezeColumns_of_frozen {r : Record} {columns : List Column} (h : r.frozen = some columns)
    (fields : List (String × SqlType × SqlValue)) : r.freezeColumns fields = (.ok columns, r) := by
  rw [freezeColumns, h]

/-- What a successful encode has gone through. -/
theorem encode_ok {r r' : Record} {event : E} {row : Row} (h : r.encode event = (.ok row, r')) :
    ∃ json fields columns values, SerdeJson.toValue event = .ok json ∧
      fieldMap E json = .ok fields ∧
      r.freezeColumns fields = (.ok columns, r') ∧ columns.mapM (encodeCell fields) = .ok values ∧
      row = ⟨values ++ [.text (SerdeJson.text E json)]⟩ := by
  unfold encode at h
  rcases hv : SerdeJson.toValue event with e | json
  · rw [hv] at h
    exact absurd h (by simp)
  rcases hm : fieldMap E json with e | fields
  · simp only [hv, hm] at h
    exact absurd h (by simp)
  rcases hz : r.freezeColumns fields with ⟨e | columns, r₁⟩
  · simp only [hv, hm, hz] at h
    exact absurd h (by simp)
  rcases hc : columns.mapM (encodeCell fields) with e | values
  · simp only [hv, hm, hz, hc] at h
    exact absurd h (by simp)
  · simp only [hv, hm, hz, hc, Prod.mk.injEq, Except.ok.injEq] at h
    obtain ⟨rfl, rfl⟩ := h
    exact ⟨json, fields, columns, values, rfl, hm, hz, hc, rfl⟩

/-- An encode leaves the record as it was, or freezes its columns. -/
theorem encode_record {r r' : Record} {event : E} {res : Except Error Row}
    (h : r.encode event = (res, r')) : r'.table = r.table ∧ (r.frozen.isSome → r' = r) := by
  unfold encode at h
  rcases hv : SerdeJson.toValue event with e | json
  · rw [hv] at h
    obtain rfl := (Prod.mk.inj h).2
    exact ⟨rfl, fun _ => rfl⟩
  rcases hm : fieldMap E json with e | fields
  · simp only [hv, hm] at h
    obtain rfl := (Prod.mk.inj h).2
    exact ⟨rfl, fun _ => rfl⟩
  rcases hz : r.freezeColumns fields with ⟨e | columns, r₁⟩
  · simp only [hv, hm, hz] at h
    obtain rfl := (Prod.mk.inj h).2
    obtain rfl := freezeColumns_error hz
    exact ⟨rfl, fun _ => rfl⟩
  · have hr : r' = r₁ := by
      rcases hc : columns.mapM (encodeCell fields) with e | values <;>
        simp only [hv, hm, hz, hc] at h <;> exact (Prod.mk.inj h).2.symm
    subst hr
    refine ⟨(freezeColumns_ok hz).2, fun hs => ?_⟩
    obtain ⟨cs, hcs⟩ := Option.isSome_iff_exists.mp hs
    rw [freezeColumns_of_frozen hcs] at hz
    exact (Prod.mk.inj hz).2.symm

end Record

/-- The payload of an event whose JSON exists is its text. -/
def eventPayload (event : E) : String :=
  match SerdeJson.toValue event with
  | .ok json => SerdeJson.text E json
  | .error _ => ""

instance : RecordOps Record E where
  table r := r.table
  schema r := r.schema
  encode r event := r.encode event
  decode r payload := r.decode payload
  payload := eventPayload
  schema_encode h := by
    obtain ⟨json, fields, columns, values, -, -, hz, -, -⟩ := Record.encode_ok h
    obtain ⟨hfrozen, htable⟩ := Record.freezeColumns_ok hz
    exact ⟨_, by rw [Record.schema, hfrozen, Option.map_some], htable⟩
  table_encode h := (Record.encode_record h).1
  encode_again h := by
    obtain ⟨json, fields, columns, values, hv, hm, hz, hc, rfl⟩ := Record.encode_ok h
    have hz' := Record.freezeColumns_of_frozen (Record.freezeColumns_ok hz).1 fields
    simp only [Record.encode, hv, hm, hz', hc]
  encode_frozen h e' := by
    obtain ⟨json, fields, columns, values, -, -, hz, -, -⟩ := Record.encode_ok h
    exact (Record.encode_record rfl).2 (by rw [(Record.freezeColumns_ok hz).1]; rfl)
  encode_payload h := by
    obtain ⟨json, fields, columns, values, hv, -, -, -, rfl⟩ := Record.encode_ok h
    simp [Row.payload?, eventPayload, hv]

end Encode

end ArtemisLight
