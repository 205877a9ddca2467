import ArtemisLight.Persistence.Equiv.Freeze
import ArtemisLight.Persistence.Naming
import ArtemisLight.Persistence.Scripted
import ArtemisLight.Persistence.Sql.Equiv.Write

/-!
# Names that a writer can use

A record is well named if its table is not the store's own and the `CREATE TABLE` of its write
schema lists no column twice, as the backend compares names.  The reserved names are checked for an
override and for the fields of an event, character by character; but neither is a bare table name
compared with the progress table, nor are the columns compared with each other, nor does the check
know that a backend may take two spellings for one name (`safelyNamed_iff`).

`wellNamed_iff_creates` says what that means to the statements of a store, and `first_write_refused`
what becomes of a write without it.  `tableColumns_distinct` is what the `CREATE TABLE` asks of the
columns that a record brings, `frozen_encodeAll_inferred` which columns an inferred record brings,
and `Construction.build_eq_ok` which record a path ends in.
-/

namespace ArtemisLight

/-- A record whose rows can be written. -/
structure WellNamed (ids : Identifiers) (r : Record) : Prop where
  table : ids.fold r.table ≠ ids.fold progressTable
  columns : ∀ schema ∈ r.schema, ids.Distinct (schema.tableColumns.map Column.name)

/-- The fields of an event that columns can be inferred from. -/
def Record.inferrable {E : Type} [SerdeJson E] (event : E) :
    Option (List (String × SqlType × SqlValue)) :=
  match Record.eventFields event with
  | .error _ => none
  | .ok fields =>
    if fields.any fun f => f.1 = blockNumberColumn || f.1 = payloadColumn then none else some fields

/-- What a path is given, once its calls are read in order: the last override, and the table name
that counts without one. -/
structure Given where
  overrides : List TableSchema
  table : Option String

namespace Given

/-- One more call on the wrapper. -/
def add (given : Given) : Setting → Given
  | .table name => { given with table := some name }
  | .schema override => { given with overrides := given.overrides ++ [override] }

/-- The path stops at an override with a reserved name, or for want of a table. -/
def Refused (given : Given) : Prop :=
  (∃ schema ∈ given.overrides, ∃ reason, schema.ensureNoReservedNames = .error reason) ∨
    given.overrides = [] ∧ given.table = none

/-- The names that count: those of the last override, or else the table and the fields of the first
event that the columns can be inferred from. -/
def Sound {E : Type} [SerdeJson E] (ids : Identifiers) (given : Given) (events : List E) : Prop :=
  match given.overrides.getLast? with
  | some schema => ids.fold schema.table ≠ ids.fold progressTable ∧
      ids.Free (schema.columns.map Column.name)
  | none => (∀ table ∈ given.table, ids.fold table ≠ ids.fold progressTable) ∧
      ∀ fields ∈ events.findSome? Record.inferrable, ids.Free (fields.map Prod.fst)

end Given

/-- What a path is given. -/
def Construction.given : Construction → Given
  | .new signature override => ⟨override.toList, some (tableName signature)⟩
  | .declared schema => ⟨[schema], none⟩
  | .inferred table => ⟨[], some table⟩
  | .bare settings => settings.foldl Given.add ⟨[], none⟩
  | .withPersistence signature settings =>
    settings.foldl Given.add ⟨[], some (tableName signature)⟩
  | .withPersistenceNamed table settings => settings.foldl Given.add ⟨[], some table⟩

/-! ### Reserved names -/

theorem declared_of_ok {schema : TableSchema} (h : schema.ensureNoReservedNames = .ok ()) :
    Record.declared schema = .ok ⟨schema.table, .declared schema.columns⟩ := by
  unfold Record.declared
  rw [h]

/-- The columns of the table are distinct if those of the record can stand beside the implicit
ones. -/
theorem tableColumns_distinct (ids : Identifiers) (table : String) (columns : List Column) :
    ids.Distinct (((⟨table, columns ++ [⟨payloadColumn, .text⟩]⟩ : TableSchema).tableColumns).map
      Column.name) ↔ ids.Free (columns.map Column.name) := by
  have hnames : ((⟨table, columns ++ [⟨payloadColumn, .text⟩]⟩ : TableSchema).tableColumns).map
      Column.name = blockNumberColumn :: (columns.map Column.name ++ [payloadColumn]) := by
    show blockNumberColumn :: List.map Column.name (columns ++ [⟨payloadColumn, .text⟩]) = _
    rw [List.map_append]
    rfl
  -- the implicit columns stand at both ends
  have hnodup : ((blockNumberColumn :: (columns.map Column.name ++ [payloadColumn])).map
      ids.fold).Nodup ↔ ((columns.map Column.name).map ids.fold).Nodup ∧
        (∀ name ∈ columns.map Column.name, ids.fold name ≠ ids.fold blockNumberColumn) ∧
        ∀ name ∈ columns.map Column.name, ids.fold name ≠ ids.fold payloadColumn := by
    rw [List.map_cons, List.map_append, List.map_singleton, List.nodup_cons, List.nodup_append]
    constructor
    · rintro ⟨hblock, hnodup, -, hpayload⟩
      refine ⟨hnodup, fun name hn heq => hblock ?_, fun name hn => ?_⟩
      · rw [← heq]
        exact List.mem_append_left _ (List.mem_map_of_mem hn)
      · exact hpayload _ (List.mem_map_of_mem hn) _ (List.mem_singleton_self _)
    · rintro ⟨hnodup, hblock, hpayload⟩
      refine ⟨fun hm => ?_, hnodup, List.nodup_singleton _, fun x hx y hy => ?_⟩
      · rcases List.mem_append.mp hm with hm | hm
        · obtain ⟨name, hn, heq⟩ := List.mem_map.mp hm
          exact hblock name hn heq
        · exact ids.implicit (List.mem_singleton.mp hm)
      · obtain ⟨name, hn, rfl⟩ := List.mem_map.mp hx
        rw [List.mem_singleton.mp hy]
        exact hpayload name hn
  rw [hnames]
  constructor
  · intro h
    obtain ⟨hn, hblock, hpayload⟩ := hnodup.mp h.nodup
    exact ⟨hn, hblock, hpayload, fun name hm =>
      h.system name (List.mem_cons_of_mem _ (List.mem_append_left _ hm))⟩
  · intro h
    refine ⟨hnodup.mpr ⟨h.nodup, h.block, h.payload⟩, fun name hm => ?_⟩
    rcases List.mem_cons.mp hm with rfl | hm
    · exact ids.block_free
    rcases List.mem_append.mp hm with hm | hm
    · exact h.system name hm
    · rw [List.mem_singleton.mp hm]
      exact ids.payload_free

/-- The `CREATE TABLE` of a well named record is never refused, whatever is in the database. -/
theorem wellNamed_iff_creates {d : Dialect} {r : Record} {schema : TableSchema}
    (hs : schema ∈ r.schema) : WellNamed d.identifiers r ↔
      d.identifiers.fold r.table ≠ d.identifiers.fold progressTable ∧
        ∀ db : Database, db.Creates d schema := by
  constructor
  · exact fun h => ⟨h.table, fun _ => Or.inr (h.columns schema hs)⟩
  · rintro ⟨htable, hcreates⟩
    refine ⟨htable, fun schema' hs' => ?_⟩
    obtain rfl := Option.mem_unique hs hs'
    exact (hcreates ⟨none, fun _ => none⟩).resolve_left (by simp)

/-- The first write of a schema with a column that the backend has already fails, and leaves the
store as it was. -/
theorem first_write_refused {P : Type} [Position P] [PositionEncoding P] {d : Dialect}
    {schema : TableSchema} (h : ¬ d.identifiers.Distinct (schema.tableColumns.map Column.name))
    {st : SqlStore} (hnew : st.db.tables schema.table = none) (faults : Nat → Option Fault)
    (position : P) (rows : List Row) :
    ∃ e, st.writeOnce d faults schema position rows = (.error e, st) := by
  refine (writeOnce_cases st schema position rows).resolve_left ?_
  rintro ⟨db, hok, -⟩
  exact h ((creates_of_writeOnce hok).resolve_left (by simp [hnew]))

/-! ### Both kinds of record along a run -/

section Run

variable {E : Type} [SerdeJson E] {ids : Identifiers}

/-- A record with columns is well named by its table and its columns. -/
theorem wellNamed_of_frozen {r : Record} {columns : List Column} (h : r.frozen = some columns) :
    WellNamed ids r ↔ ids.fold r.table ≠ ids.fold progressTable ∧
      ids.Free (columns.map Column.name) := by
  have hschema : r.schema = some ⟨r.table, columns ++ [⟨payloadColumn, .text⟩]⟩ := by
    unfold Record.schema
    rw [h]
    rfl
  rw [← tableColumns_distinct ids r.table]
  constructor
  · exact fun hw => ⟨hw.table, hw.columns _ hschema⟩
  · rintro ⟨htable, hcolumns⟩
    refine ⟨htable, fun schema hs => ?_⟩
    obtain rfl := Option.some.inj (hschema.symm.trans hs)
    exact hcolumns

theorem wellNamed_declared (schema : TableSchema) (events : List E) :
    WellNamed ids ((⟨schema.table, .declared schema.columns⟩ : Record).encodeAll events) ↔
      ids.fold schema.table ≠ ids.fold progressTable ∧
        ids.Free (schema.columns.map Column.name) := by
  have hrun : (⟨schema.table, .declared schema.columns⟩ : Record).encodeAll events
      = ⟨schema.table, .declared schema.columns⟩ := Record.frozen_encodeAll rfl events
  rw [hrun]
  exact wellNamed_of_frozen rfl

/-- An encode freezes the columns of an event that they can be inferred from. -/
theorem frozen_encode {r : Record} (hr : r.frozen = none) (event : E) :
    (r.encode event).2.frozen = (Record.inferrable event).map Record.inferredColumns := by
  unfold Record.encode Record.inferrable Record.eventFields
  rcases SerdeJson.toValue event with e | json
  · exact hr
  simp only
  rcases fieldMap E json with e | fields
  · exact hr
  simp only
  by_cases hreserved : Record.ReservedField fields
  · have hany : (fields.any fun f => f.1 = blockNumberColumn || f.1 = payloadColumn) = true := by
      obtain ⟨f, hf, hname⟩ := hreserved
      exact List.any_eq_true.mpr ⟨f, hf, by simpa using hname⟩
    rw [if_pos hany]
    obtain ⟨e, hfreeze⟩ := Record.freezeColumns_reserved hr hreserved
    rw [hfreeze]
    exact hr
  · have hany : ¬ (fields.any fun f => f.1 = blockNumberColumn || f.1 = payloadColumn) = true := by
      intro h
      obtain ⟨f, hf, hname⟩ := List.any_eq_true.mp h
      exact hreserved ⟨f, hf, by simpa using hname⟩
    rw [if_neg hany]
    obtain ⟨r', hfreeze⟩ := Record.freezeColumns_first hr hreserved
    rw [hfreeze]
    have hfrozen := (Record.freezeColumns_ok hfreeze).1
    simp only
    rcases (Record.inferredColumns fields).mapM (Record.encodeCell fields) with e | values
    · exact hfrozen
    · exact hfrozen

/-- The columns of an inferred record are those of the first event that they can be inferred
from. -/
theorem frozen_encodeAll_inferred (table : String) (events : List E) :
    ((Record.inferred table).encodeAll events).frozen
      = (events.findSome? Record.inferrable).map Record.inferredColumns := by
  suffices h : ∀ r : Record, r.frozen = none → (r.encodeAll events).frozen
      = (events.findSome? Record.inferrable).map Record.inferredColumns from h _ rfl
  induction events with
  | nil => exact fun r hr => hr
  | cons event events ih =>
    intro r hr
    have hstep := frozen_encode hr event
    show ((r.encode event).2.encodeAll events).frozen = _
    rcases hfields : Record.inferrable event with _ | fields
    · rw [List.findSome?_cons, hfields]
      rw [hfields] at hstep
      exact ih _ hstep
    · rw [List.findSome?_cons, hfields]
      rw [hfields] at hstep
      rw [Record.frozen_encodeAll hstep events]
      exact hstep

theorem table_encodeAll (r : Record) (events : List E) : (r.encodeAll events).table = r.table := by
  induction events generalizing r with
  | nil => rfl
  | cons event events ih => exact (ih (r.encode event).2).trans (Record.encode_record rfl).1

/-- A record that infers its columns is well named by its table and the first event's fields. -/
theorem wellNamed_inferred (table : String) (events : List E) :
    WellNamed ids ((Record.inferred table).encodeAll events) ↔
      ids.fold table ≠ ids.fold progressTable ∧
        ∀ fields ∈ events.findSome? Record.inferrable, ids.Free (fields.map Prod.fst) := by
  have htable : ((Record.inferred table).encodeAll events).table = table := table_encodeAll _ events
  have hfrozen := frozen_encodeAll_inferred table events
  rcases hfields : events.findSome? Record.inferrable with _ | fields
  · rw [hfields] at hfrozen
    constructor
    · intro hw
      exact ⟨htable ▸ hw.table, fun fields hf => nomatch hf⟩
    · rintro ⟨hne, -⟩
      refine ⟨htable.symm ▸ hne, fun schema hs => ?_⟩
      unfold Record.schema at hs
      rw [hfrozen] at hs
      exact nomatch hs
  · rw [hfields] at hfrozen
    have hnames : (Record.inferredColumns fields).map Column.name = fields.map Prod.fst := by
      unfold Record.inferredColumns
      rw [List.map_map]
      rfl
    rw [wellNamed_of_frozen hfrozen, htable, hnames]
    constructor
    · rintro ⟨hne, hfree⟩
      refine ⟨hne, fun fields' hf => ?_⟩
      obtain rfl := Option.some.inj hf
      exact hfree
    · exact fun ⟨hne, hfree⟩ => ⟨hne, hfree fields rfl⟩

end Run

/-! ### Every path -/

namespace Given

/-- The record of a path that is not refused. -/
def record (given : Given) : Record :=
  match given.overrides.getLast? with
  | some schema => ⟨schema.table, .declared schema.columns⟩
  | none => Record.inferred (given.table.getD "")

theorem mem_overrides_foldl {given : Given} {schema : TableSchema} (h : schema ∈ given.overrides)
    (settings : List Setting) : schema ∈ (settings.foldl add given).overrides := by
  induction settings generalizing given with
  | nil => exact h
  | cons setting settings ih =>
    apply ih
    cases setting with
    | table name => exact h
    | schema override => exact List.mem_append_left _ h

/-- What the calls so far have given, as the wrapper knows it: no override of them was refused. -/
structure Known (given : Given) (names : Names) : Prop where
  schema : names.schema = given.overrides.getLast?
  table : names.table = given.table
  unreserved : ∀ schema ∈ given.overrides, schema.ensureNoReservedNames = .ok ()

/-- A path ends in the record of what it was given, unless it is refused. -/
theorem resolveSettings_eq_ok {given : Given} {names : Names} (h : given.Known names)
    (settings : List Setting) (r : Record) :
    resolveSettings names settings = .ok r ↔
      ¬ (settings.foldl add given).Refused ∧ r = (settings.foldl add given).record := by
  induction settings generalizing given names with
  | nil =>
    show resolveRecord names.schema names.table = .ok r ↔ ¬ given.Refused ∧ r = given.record
    rw [h.schema, h.table]
    unfold record
    -- the last override decides, or else the table name
    rcases hlast : given.overrides.getLast? with _ | schema
    · have hnil := List.getLast?_eq_none_iff.mp hlast
      rcases htable : given.table with _ | table
      · constructor
        · exact fun hr => nomatch hr
        · exact fun hr => absurd (Or.inr ⟨hnil, htable⟩) hr.1
      · constructor
        · intro hr
          refine ⟨?_, (Except.ok.inj hr).symm⟩
          rintro (⟨schema, hs, -⟩ | ⟨-, hnone⟩)
          · rw [hnil] at hs
            exact absurd hs (by simp)
          · exact nomatch htable.symm.trans hnone
        · rintro ⟨-, rfl⟩
          rfl
    · have hmem := List.mem_of_getLast? hlast
      have hok := declared_of_ok (h.unreserved schema hmem)
      show Record.declared schema = .ok r ↔ _
      rw [hok]
      constructor
      · intro hr
        refine ⟨?_, (Except.ok.inj hr).symm⟩
        rintro (⟨s, hs, reason, herr⟩ | ⟨hnil, -⟩)
        · exact nomatch (h.unreserved s hs).symm.trans herr
        · rw [hnil] at hmem
          exact absurd hmem (by simp)
      · rintro ⟨-, rfl⟩
        rfl
  | cons setting settings ih =>
    cases setting with
    | table name => exact ih ⟨h.schema, rfl, h.unreserved⟩
    | schema override =>
      rcases hcheck : override.ensureNoReservedNames with reason | ⟨⟨⟩⟩
      · -- the call fails, and the override stays among those that the path was given
        have herr : resolveSettings names (.schema override :: settings)
            = .error s!"invalid schema override: {reason}" := by
          simp only [resolveSettings, Setting.apply, Names.trySchema, hcheck]
        have hmem : override ∈ (settings.foldl add (given.add (.schema override))).overrides :=
          mem_overrides_foldl (List.mem_append_right _ List.mem_cons_self) settings
        rw [herr]
        constructor
        · exact fun hr => nomatch hr
        · exact fun hr => absurd (Or.inl ⟨override, hmem, reason, hcheck⟩) hr.1
      · have hstep : resolveSettings names (.schema override :: settings)
            = resolveSettings { names with schema := some override } settings := by
          simp only [resolveSettings, Setting.apply, Names.trySchema, hcheck]
        rw [hstep]
        apply ih
        refine ⟨?_, h.table, fun schema hs => ?_⟩
        · show some override = (given.overrides ++ [override]).getLast?
          rw [List.getLast?_concat]
        · rcases List.mem_append.mp hs with hs | hs
          · exact h.unreserved schema hs
          · rw [List.mem_singleton.mp hs]
            exact hcheck

end Given

/-- A path ends in the record of what it is given, unless it is refused. -/
theorem Construction.build_eq_ok (c : Construction) (r : Record) :
    c.build = .ok r ↔ ¬ c.given.Refused ∧ r = c.given.record := by
  have hknown : ∀ table : Option String, (⟨[], table⟩ : Given).Known ⟨none, table⟩ :=
    fun _ => ⟨rfl, rfl, fun _ hs => absurd hs (by simp)⟩
  have hschema : ∀ schema : TableSchema, ∀ table : Option String,
      Record.declared schema = .ok r ↔
        ¬ (⟨[schema], table⟩ : Given).Refused ∧ r = (⟨[schema], table⟩ : Given).record := by
    intro schema table
    have hsame : resolveSettings ⟨none, table⟩ [.schema schema] = Record.declared schema := by
      simp only [resolveSettings, Setting.apply, Names.trySchema, Record.declared]
      rcases hcheck : schema.ensureNoReservedNames with reason | ⟨⟨⟩⟩
      · rfl
      · show Record.declared schema = _
        exact declared_of_ok hcheck
    rw [← hsame]
    exact Given.resolveSettings_eq_ok (hknown table) [.schema schema] r
  cases c with
  | new signature override =>
    cases override with
    | some schema => exact hschema schema _
    | none => exact Given.resolveSettings_eq_ok (hknown (some (tableName signature))) [] r
  | declared schema => exact hschema schema none
  | inferred table => exact Given.resolveSettings_eq_ok (hknown (some table)) [] r
  | bare settings => exact Given.resolveSettings_eq_ok (hknown none) settings r
  | withPersistence signature settings =>
    exact Given.resolveSettings_eq_ok (hknown (some (tableName signature))) settings r
  | withPersistenceNamed table settings =>
    exact Given.resolveSettings_eq_ok (hknown (some table)) settings r

/-- Whatever events come, the record of the path is well named. -/
def Construction.SafelyNamed {E : Type} [SerdeJson E] (ids : Identifiers) (c : Construction)
    (events : List E) : Prop :=
  ∀ r, c.build = .ok r → ∀ done, done <+: events → WellNamed ids (r.encodeAll done)

/-- What a path is given says whether its record is well named. -/
theorem Given.wellNamed_record {E : Type} [SerdeJson E] {ids : Identifiers} {given : Given}
    (h : ¬ given.Refused) (events : List E) :
    WellNamed ids (given.record.encodeAll events) ↔ given.Sound ids events := by
  unfold Given.record Given.Sound
  rcases hlast : given.overrides.getLast? with _ | schema
  · rcases htable : given.table with _ | table
    · exact absurd (Or.inr ⟨List.getLast?_eq_none_iff.mp hlast, htable⟩) h
    · show WellNamed ids ((Record.inferred table).encodeAll events) ↔ _
      rw [wellNamed_inferred]
      simp only [Option.mem_def, Option.some.injEq, forall_eq']
  · exact wellNamed_declared schema events

/-- The first of the events decides for all that come before the others. -/
theorem Given.Sound.mono {E : Type} [SerdeJson E] {ids : Identifiers} {given : Given}
    {done events : List E} (h : given.Sound ids events) (hdone : done <+: events) :
    given.Sound ids done := by
  unfold Given.Sound at h ⊢
  rcases hlast : given.overrides.getLast? with _ | schema
  · rw [hlast] at h
    refine ⟨h.1, fun fields hf => h.2 fields ?_⟩
    obtain ⟨rest, rfl⟩ := hdone
    rw [Option.mem_def] at hf ⊢
    rw [List.findSome?_append, hf]
    rfl
  · rw [hlast] at h
    exact h

/-- However the backend compares names: a path is refused or leads to well-named records exactly
when it is refused, or the names that count are sound. -/
theorem safelyNamed_iff {E : Type} [SerdeJson E] (ids : Identifiers) (c : Construction)
    (events : List E) : c.SafelyNamed ids events ↔ c.given.Refused ∨ c.given.Sound ids events := by
  constructor
  · intro h
    by_cases hrefused : c.given.Refused
    · exact Or.inl hrefused
    · have hbuild := (c.build_eq_ok c.given.record).mpr ⟨hrefused, rfl⟩
      have hnamed := h _ hbuild events (List.prefix_refl _)
      exact Or.inr ((Given.wellNamed_record hrefused events).mp hnamed)
  · intro h r hbuild done hdone
    obtain ⟨hrefused, rfl⟩ := (c.build_eq_ok r).mp hbuild
    exact (Given.wellNamed_record hrefused done).mpr ((h.resolve_left hrefused).mono hdone)

/-! ### Names that are not checked -/

/-- An override that lists a column twice. -/
def twiceListed : TableSchema := ⟨"value_set", [⟨"value", .text⟩, ⟨"value", .numeric⟩]⟩

/-- An override with two spellings of a column. -/
def twiceSpelled : TableSchema := ⟨"value_set", [⟨"value", .text⟩, ⟨"VALUE", .numeric⟩]⟩

theorem fold_progressTable :
    Identifiers.sqlite.fold "_Artemis_Progress" = Identifiers.sqlite.fold progressTable := by
  show Identifiers.foldCase "_Artemis_Progress" = Identifiers.foldCase progressTable
  decide

/-- SQLite would create the second column under the name of the first. -/
theorem twiceSpelled_indistinct : ¬ Identifiers.sqlite.Distinct
    ((⟨"value_set", twiceSpelled.columns ++ [⟨payloadColumn, .text⟩]⟩ :
      TableSchema).tableColumns.map Column.name) := by
  rw [tableColumns_distinct]
  intro h
  have hnodup : ([Identifiers.foldCase "value", Identifiers.foldCase "VALUE"]).Nodup := h.nodup
  exact absurd hnodup (by decide)

/-- A wrapper that is given the progress table by name, and an override with a column listed twice,
both lead to a record that encodes events; so do other spellings of these names, which SQLite does
not tell apart. -/
theorem unchecked_names_accepted :
    (∀ ids ∈ [Identifiers.sqlite, Identifiers.postgres],
      ¬ (Construction.withPersistenceNamed progressTable []).SafelyNamed ids [(⟨7⟩ : ValueSet)] ∧
      ¬ (Construction.declared twiceListed).SafelyNamed ids [(⟨7⟩ : ValueSet)]) ∧
    (∃ row r, (Record.inferred progressTable).encode (⟨7⟩ : ValueSet) = (.ok row, r) ∧
      r.table = progressTable) ∧
    (∃ r row, Record.declared twiceListed = .ok r ∧
      r.encode (⟨7⟩ : ValueSet) = (.ok row, r)) ∧
    ¬ (Construction.withPersistenceNamed "_Artemis_Progress" []).SafelyNamed .sqlite
      [(⟨7⟩ : ValueSet)] ∧
    ¬ (Construction.declared twiceSpelled).SafelyNamed .sqlite [(⟨7⟩ : ValueSet)] ∧
    ∃ r row, Record.declared twiceSpelled = .ok r ∧ r.encode (⟨7⟩ : ValueSet) = (.ok row, r) := by
  refine ⟨fun ids _ => ⟨fun h => ?_, fun h => ?_⟩, ⟨_, _, rfl, rfl⟩, ⟨_, _, rfl, rfl⟩, fun h => ?_,
    fun h => ?_, _, _, rfl, rfl⟩
  · exact (h _ rfl [] List.nil_prefix).table rfl
  · have hnodup := ((h _ rfl [] List.nil_prefix).columns _ rfl).nodup
    exact absurd hnodup (by simp [twiceListed, TableSchema.tableColumns])
  · exact (h _ rfl [] List.nil_prefix).table fold_progressTable
  · exact twiceSpelled_indistinct ((h _ rfl [] List.nil_prefix).columns _ rfl)

/-- The table of a `ValueSet` event is its own, and so is its column. -/
theorem value_set_safelyNamed :
    (Construction.withPersistence "ValueSet(uint256)" []).SafelyNamed .sqlite
        [(⟨7⟩ : ValueSet)] ∧
      (Construction.withPersistence "ValueSet(uint256)" []).SafelyNamed .postgres
        [(⟨7⟩ : ValueSet)] := by
  have hfields : [(⟨7⟩ : ValueSet)].findSome? Record.inferrable
      = some [("value", .text, .text (ValueSet.hex 7))] := rfl
  constructor
  · refine (safelyNamed_iff _ _ _).mpr (Or.inr ⟨?_, ?_⟩)
    · rintro table ⟨⟩
      decide
    · rw [hfields]
      rintro fields ⟨⟩
      exact ⟨by decide, by decide, by decide, by decide⟩
  · refine (safelyNamed_iff _ _ _).mpr (Or.inr ⟨?_, ?_⟩)
    · rintro table ⟨⟩
      decide
    · rw [hfields]
      rintro fields ⟨⟩
      exact ⟨by decide, by decide, by decide, by decide⟩

end ArtemisLight
