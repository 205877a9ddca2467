import ArtemisLight.Persistence.Equiv.Freeze
import ArtemisLight.Persistence.Sql.Equiv.Chunks
import ArtemisLight.Persistence.Writer.Equiv.Window
import ArtemisLight.Persistence.Writer.Pipeline

/-!
# Rows aligned with the write schema

Both writers encode with one record, and each captures its schema at its first successful encode.
`Conforms` ties a writer, the rows it holds, the record and the writes asked of the store: there is
one schema, a writer that holds rows has captured it, and every row is an event's row under it.  A
store that keeps what it is asked for (`Watched`) makes failed writes visible as well.

* `Pipeline.writers_aligned`: whatever calls are made of the two writers, and whatever fails, every
  row asked of the store is an event's row under one schema.  `persistAndEmit_eq_calls` says that a
  subscription is such a sequence of calls.

`encode_aligned` is about one row, and `Conforms.encode` and `Conforms.flush` about one handle.
From these each operation of a writer is a step that keeps the invariant (`Steps`): `steps_record`
and `steps_finish` of the settled writer, `steps_record`, `steps_recordSeeded`, `steps_retract` and
`steps_absorb` of the window.  `Conforms.beside` lets the other writer stand by, which gives
`BothConform.call` and, by induction, `BothConform.calls`.
-/

namespace ArtemisLight

variable {σ ρ P E : Type}

/-! ### The row of an event -/

section Row

variable [SerdeJson E]

/-- A row with one cell for each column, in the order of the columns: the event field of that name
or `NULL`, and for the last column the event's payload. -/
def TableSchema.Aligned (schema : TableSchema) (event : E) (row : Row) : Prop :=
  ∃ columns fields, schema.columns = columns ++ [⟨payloadColumn, .text⟩] ∧
    Record.eventFields event = .ok fields ∧
    row.cells = columns.map (Record.cellOf fields) ++ [.text (eventPayload event)]

theorem TableSchema.Aligned.fits {schema : TableSchema} {event : E} {row : Row}
    (h : schema.Aligned event row) : row.Fits schema := by
  obtain ⟨columns, fields, hcolumns, -, hcells⟩ := h
  show row.cells.length = schema.columns.length
  rw [hcolumns, hcells, List.length_append, List.length_append, List.length_map]
  rfl

namespace Record

/-- The cells of a row are the event's own, none of them replaced. -/
theorem cells_of_mapM {fields : List (String × SqlType × SqlValue)} {columns : List Column}
    {values : List SqlValue} (h : columns.mapM (encodeCell fields) = .ok values) :
    values = columns.map (cellOf fields) := by
  by_cases hrejects : ∃ column ∈ columns, column.Rejects (cellOf fields column)
  · obtain ⟨e, he⟩ := mapM_encodeCell_error hrejects
    rw [he] at h
    exact nomatch h
  · rw [mapM_encodeCell_ok fun column hm hr => hrejects ⟨column, hm, hr⟩] at h
    exact (Except.ok.inj h).symm

/-- A row that is returned is aligned with the schema that the record has from then on. -/
theorem encode_aligned {r r' : Record} {event : E} {row : Row}
    (h : r.encode event = (.ok row, r')) :
    ∃ schema, r'.schema = some schema ∧ schema.Aligned event row := by
  obtain ⟨json, fields, columns, values, hv, hm, hz, hc, rfl⟩ := encode_ok h
  refine ⟨⟨r'.table, columns ++ [⟨payloadColumn, .text⟩]⟩, ?_, columns, fields, rfl, ?_, ?_⟩
  · rw [schema, (freezeColumns_ok hz).1]
    rfl
  · simp only [eventFields, hv, hm]
  · simp only [cells_of_mapM hc, eventPayload, hv]

/-- Encoding does not change a schema that is known. -/
theorem schema_encode {r r' : Record} {event : E} {res : Except Error Row}
    (h : r.encode event = (res, r')) {schema : TableSchema} (hs : r.schema = some schema) :
    r'.schema = some schema := by
  have hfrozen : r.frozen.isSome := by
    rw [Record.schema] at hs
    obtain ⟨columns, hcolumns, -⟩ := Option.map_eq_some_iff.mp hs
    rw [hcolumns]
    rfl
  rw [(encode_record h).2 hfrozen]
  exact hs

end Record

end Row

/-! ### Watching a store -/

/-- A store that keeps the writes it is asked for, whatever it answers. -/
structure Watched (σ P : Type) where
  store : σ
  asked : List (TableSchema × P × List Row)

instance [Store σ P] : Store (Watched σ P) P where
  write s schema position rows :=
    ((Store.write s.store schema position rows).1,
      ⟨(Store.write s.store schema position rows).2, s.asked ++ [(schema, position, rows)]⟩)
  storedPosition s table := Store.storedPosition s.store table
  replay s schema position := Store.replay s.store schema position

/-! ### The invariant of a writer -/

variable [SerdeJson E]

/-- The row of one of the events `D`, under the schema that the record has. -/
def RowOf (D : E → Prop) (record : Record) (row : Row) : Prop :=
  ∃ schema event, record.schema = some schema ∧ D event ∧ schema.Aligned event row

/-- A writer that holds the rows `held`, its record, and what has been asked of the store. -/
structure Conforms (D : E → Prop) (core : GapFreeWriter) (held : Row → Prop)
    (io : Io (Watched σ P) Record P E) : Prop where
  captured : ∀ schema ∈ core.schema, io.record.schema = some schema
  held : ∀ row, held row → core.schema.isSome ∧ RowOf D io.record row
  asked : ∀ x ∈ io.store.asked, io.record.schema = some x.1 ∧
    ∀ row ∈ x.2.2, RowOf D io.record row

/-- What only grows: the captured schema and the record's. -/
structure Grows (core core' : GapFreeWriter) (io io' : Io (Watched σ P) Record P E) : Prop where
  schema : ∀ schema ∈ core.schema, schema ∈ core'.schema
  record : ∀ schema, io.record.schema = some schema → io'.record.schema = some schema

omit [SerdeJson E] in
theorem Grows.refl (core : GapFreeWriter) (io : Io (Watched σ P) Record P E) :
    Grows core core io io := ⟨fun _ h => h, fun _ h => h⟩

omit [SerdeJson E] in
theorem Grows.trans {core core' core'' : GapFreeWriter} {io io' io'' : Io (Watched σ P) Record P E}
    (h : Grows core core' io io') (h' : Grows core' core'' io' io'') :
    Grows core core'' io io'' :=
  ⟨fun s hs => h'.schema s (h.schema s hs), fun s hs => h'.record s (h.record s hs)⟩

variable {D : E → Prop} {core : GapFreeWriter} {held : Row → Prop}
  {io : Io (Watched σ P) Record P E}

theorem RowOf.grows {record record' : Record} {row : Row} (h : RowOf D record row)
    (hr : ∀ schema, record.schema = some schema → record'.schema = some schema) :
    RowOf D record' row := by
  obtain ⟨schema, event, hs, hD, ha⟩ := h
  exact ⟨schema, event, hr schema hs, hD, ha⟩

namespace Conforms

/-- Dropping rows keeps the invariant. -/
theorem drop (h : Conforms D core held io) {held' : Row → Prop}
    (hd : ∀ row, held' row → held row) : Conforms D core held' io :=
  ⟨h.captured, fun row hr => h.held row (hd row hr), h.asked⟩

/-- Neither the health of a writer nor the effects matter. -/
theorem unhealthy (h : Conforms D core held io) (healthy : Bool)
    (effects : List (Effect P E)) :
    Conforms D { core with healthy } held { io with effects } := ⟨h.captured, h.held, h.asked⟩

/-- A record that keeps its schema keeps the rows aligned. -/
theorem recorded (h : Conforms D core held io) {record : Record}
    (hr : ∀ schema, io.record.schema = some schema → record.schema = some schema) :
    Conforms D core held { io with record } where
  captured schema hs := hr schema (h.captured schema hs)
  held row hrow := ⟨(h.held row hrow).1, (h.held row hrow).2.grows hr⟩
  asked x hx := ⟨hr x.1 (h.asked x hx).1, fun row hrow => ((h.asked x hx).2 row hrow).grows hr⟩

/-- An encode captures the record's schema with the event's row, or fails. -/
theorem encode (h : Conforms D core held io) {event : E} (hD : D event) :
    (∃ row core' io', core.encode io event = (some row, core', io') ∧ Grows core core' io io' ∧
      Conforms D core' (fun r => r = row ∨ held r) io') ∨
    ∃ core' io', core.encode io event = (none, core', io') ∧ Grows core core' io io' ∧
      Conforms D core' held io' := by
  rcases he : io.record.encode event with ⟨e | row, record⟩
  · -- a failed encode may still have frozen the columns
    have hr : ∀ schema, io.record.schema = some schema → record.schema = some schema :=
      fun _ hs => Record.schema_encode he hs
    refine Or.inr ⟨{ core with healthy := false },
      ({ io with record } : Io (Watched σ P) Record P E).emit (.halted core.writer (.encode e)),
      ?_, ⟨fun _ hs => hs, hr⟩, (h.recorded hr).unhealthy false _⟩
    simp only [GapFreeWriter.encode, RecordOps.encode, he]
    rfl
  · have hr : ∀ schema, io.record.schema = some schema → record.schema = some schema :=
      fun _ hs => Record.schema_encode he hs
    obtain ⟨schema, hschema, ha⟩ := Record.encode_aligned he
    -- a schema captured earlier is the record's
    have hsame : ∀ s ∈ core.schema, s = schema := by
      intro s hs
      have := hr s (h.captured s hs)
      rw [hschema] at this
      exact (Option.some.inj this).symm
    have hcore : (if core.schema.isNone then RecordOps.schema (E := E) record else core.schema)
        = some schema := by
      rcases hs : core.schema with _ | s
      · exact hschema
      · rw [hsame s hs]
        rfl
    refine Or.inl ⟨row, { core with schema := some schema }, { io with record }, ?_, ⟨?_, hr⟩, ?_⟩
    · simp only [GapFreeWriter.encode, RecordOps.encode, he]
      rw [hcore]
    · intro s hs
      rw [hsame s hs]
      rfl
    · refine ⟨fun s hs => ?_, ?_, (h.recorded hr).asked⟩
      · rw [← Option.some.inj hs]
        exact hschema
      · rintro r (rfl | hrow)
        · exact ⟨rfl, schema, event, hschema, hD, ha⟩
        · exact ⟨rfl, ((h.recorded hr).held r hrow).2⟩

/-- A flush asks the store for a write under the one schema; without a schema there are no rows. -/
theorem flush [Store σ P] (h : Conforms D core held io) (position : P) (rows : List Row)
    (hrows : ∀ row ∈ rows, held row) :
    Grows core (core.flush io position rows).2.1 io (core.flush io position rows).2.2 ∧
      Conforms D (core.flush io position rows).2.1 held (core.flush io position rows).2.2 := by
  rcases hs : core.schema with _ | schema
  · simp only [GapFreeWriter.flush, hs]
    exact ⟨.refl core io, h⟩
  · have hasked : ∀ x ∈ io.store.asked ++ [(schema, position, rows)],
        io.record.schema = some x.1 ∧ ∀ row ∈ x.2.2, RowOf D io.record row := by
      intro x hx
      rcases List.mem_append.mp hx with hx | hx
      · exact h.asked x hx
      · obtain rfl := List.mem_singleton.mp hx
        exact ⟨h.captured schema hs, fun row hrow => (h.held row (hrows row hrow)).2⟩
    rcases GapFreeWriter.flush_cases hs io position rows with
      ⟨store, hw, hf⟩ | ⟨e, store, hw, hf⟩
    all_goals
      obtain rfl := (Prod.mk.inj hw).2
      rw [hf]
      exact ⟨⟨fun _ h => h, fun _ h => h⟩, h.captured, h.held, hasked⟩

end Conforms

/-- A step of a writer that keeps the invariant. -/
structure Steps (D : E → Prop) (core core' : GapFreeWriter) (held' : Row → Prop)
    (io io' : Io (Watched σ P) Record P E) : Prop where
  grows : Grows core core' io io'
  aligned : Conforms D core' held' io'

theorem Conforms.stays (h : Conforms D core held io) : Steps D core core held io io :=
  ⟨.refl core io, h⟩

/-- A writer beside one that takes a step. -/
theorem Conforms.beside (h : Conforms D core held io) {core₁ core₁' : GapFreeWriter}
    {held₁ : Row → Prop} {io' : Io (Watched σ P) Record P E}
    (hstep : Steps D core₁ core₁' held₁ io io') : Steps D core core held io io' := by
  refine ⟨⟨fun _ hs => hs, hstep.grows.record⟩, ?_, ?_, hstep.aligned.asked⟩
  · exact fun schema hs => hstep.grows.record schema (h.captured schema hs)
  · exact fun row hr => ⟨(h.held row hr).1, (h.held row hr).2.grows hstep.grows.record⟩

variable [Position P] [Store σ P]

/-! ### The settled writer -/

namespace BlockWriter

theorem steps_record {w : BlockWriter P} (h : Conforms D w.core (· ∈ w.buffer) io) (position : P)
    {event : E} (hD : D event) :
    Steps D w.core (w.record io position event).1.core
      (· ∈ (w.record io position event).1.buffer) io (w.record io position event).2.1 := by
  unfold record
  split
  · exact h.stays
  split
  · exact h.stays
  rcases h.encode hD with ⟨row, core, io', he, hg, ha⟩ | ⟨core, io', he, hg, ha⟩ <;> simp only [he]
  · -- the open group takes the row
    have hpush : ∀ buffer : List Row, (∀ r ∈ buffer, r ∈ w.buffer) →
        ∀ r ∈ buffer ++ [row], r = row ∨ r ∈ w.buffer := by
      intro buffer hb r hr
      rcases List.mem_append.mp hr with hr | hr
      · exact Or.inr (hb r hr)
      · exact Or.inl (List.mem_singleton.mp hr)
    rcases w.current with _ | cur
    · exact ⟨⟨hg.schema, hg.record⟩, (ha.drop (hpush w.buffer fun _ hr => hr)).unhealthy _ _⟩
    · simp only
      split
      · exact ⟨⟨hg.schema, hg.record⟩, (ha.drop fun _ hr => nomatch hr).unhealthy _ _⟩
      split
      · obtain ⟨hg', ha'⟩ := ha.flush cur w.buffer fun _ hr => Or.inr hr
        rcases hf : core.flush io' cur w.buffer with ⟨_ | _, core', io''⟩ <;> simp only
        · rw [hf] at hg' ha'
          exact ⟨hg.trans hg', ha'.drop fun _ hr => nomatch hr⟩
        · rw [hf] at hg' ha'
          refine ⟨⟨(hg.trans hg').schema, (hg.trans hg').record⟩, ?_⟩
          exact (ha'.drop (hpush [] fun _ hr => nomatch hr)).unhealthy _ _
      · exact ⟨⟨hg.schema, hg.record⟩, (ha.drop (hpush w.buffer fun _ hr => hr)).unhealthy _ _⟩
  · exact ⟨hg, ha.drop fun _ hr => nomatch hr⟩

theorem steps_finish {w : BlockWriter P} (h : Conforms D w.core (· ∈ w.buffer) io) :
    Steps D w.core (w.finish io).1.core (· ∈ (w.finish io).1.buffer) io (w.finish io).2 := by
  unfold finish
  split
  · rcases w.current with _ | cur
    · exact h.stays
    · obtain ⟨hg, ha⟩ := h.flush cur w.buffer fun _ hr => hr
      rcases hf : w.core.flush io cur w.buffer with ⟨_ | _, core, io'⟩
      all_goals
        simp only [hf]
        rw [hf] at hg ha
        exact ⟨hg, ha.drop fun _ hr => nomatch hr⟩
  · exact h.stays

end BlockWriter

/-! ### The confirmation window -/

namespace ConfirmationWindow

/-- Whether a row is buffered in one of the groups.  The rows of a dedupe set are not. -/
def Holds (w : ConfirmationWindow P) (row : Row) : Prop :=
  ∃ (k : Nat) (p : Pending P), w.pending[k]? = some p ∧ row ∈ p.rows

omit [Position P] [SerdeJson E] [Store σ P] in
theorem not_holds_empty {w : ConfirmationWindow P} (h : w.pending = ∅) (row : Row) :
    ¬ w.Holds row := by
  rintro ⟨k, p, hp, -⟩
  rw [h] at hp
  simp at hp

omit [Position P] in
theorem holds_rewind {w : ConfirmationWindow P} {key : Nat} {row : Row}
    (h : (w.rewind key).Holds row) : w.Holds row := by
  obtain ⟨k, p, hp, hrow⟩ := h
  rw [getElem?_rewind] at hp
  obtain ⟨q, hq, hp⟩ := Option.bind_eq_some_iff.mp hp
  split at hp
  · split at hp
    · -- the rows of a seeded group become its dedupe set
      rw [← Option.some.inj hp] at hrow
      exact nomatch hrow
    · exact nomatch hp
  · rw [← Option.some.inj hp] at hrow
    exact ⟨k, q, hq, hrow⟩

omit [SerdeJson E] [Store σ P] in
theorem holds_fold {w : ConfirmationWindow P} {io : Io σ ρ P E} {position : P} {event : E}
    {row r : Row} (h : (w.fold io position event row).1.Holds r) : r = row ∨ w.Holds r := by
  obtain ⟨k, p, hp, hr⟩ := h
  unfold fold at hp
  rcases hq : w.pending[Position.sortKey position]? with _ | q
  all_goals
    simp only [hq] at hp
    rw [getElem?_insert] at hp
    split at hp
  · rw [← Option.some.inj hp] at hr
    exact Or.inl (List.mem_singleton.mp hr)
  · exact Or.inr ⟨k, p, hp, hr⟩
  · rw [← Option.some.inj hp] at hr
    rcases List.mem_append.mp hr with hr | hr
    · -- a group that is rebuilt starts without rows
      split at hr
      · exact nomatch hr
      · exact Or.inr ⟨_, q, hq, hr⟩
    · exact Or.inl (List.mem_singleton.mp hr)
  · exact Or.inr ⟨k, p, hp, hr⟩

omit [SerdeJson E] [Store σ P] in
/-- Folding an event into its group touches no handle. -/
theorem fold_quiet (w : ConfirmationWindow P) (io : Io σ ρ P E) (position : P) (event : E)
    (row : Row) : (w.fold io position event row).1.core = w.core ∧
      ∃ effects, (w.fold io position event row).2.1 = { io with effects } := by
  unfold fold
  rcases hq : w.pending[Position.sortKey position]? with _ | q <;> simp only [hq]
  · exact ⟨trivial, _, rfl⟩
  · generalize decide (Position.reobservation P = .halt ∧ q.seeded = true) = rebuild
    cases rebuild <;> exact ⟨trivial, _, rfl⟩

omit [SerdeJson E] [Store σ P] in
/-- Accepting an event buffers its row, and touches no handle. -/
theorem accept_quiet (w : ConfirmationWindow P) (io : Io σ ρ P E) (position : P) (event : E)
    (row : Row) : (w.accept io position event row).1.core = w.core ∧
      (∃ effects, (w.accept io position event row).2.1 = { io with effects }) ∧
      ∀ r, (w.accept io position event row).1.Holds r → r = row ∨ w.Holds r := by
  unfold accept
  simp only
  split
  · obtain ⟨hcore, effects, hio⟩ := fold_quiet
      { w.rewind (Position.sortKey position) with head := some (Position.sortKey position) }
      (io.emit (.rewound (Position.sortKey position))) position event row
    exact ⟨hcore, ⟨effects, hio⟩, fun r hr => (holds_fold hr).imp_right holds_rewind⟩
  · obtain ⟨hcore, effects, hio⟩ := fold_quiet w io position event row
    exact ⟨hcore, ⟨effects, hio⟩, fun r hr => holds_fold hr⟩

omit [SerdeJson E] [Store σ P] in
theorem holds_acceptSeeded (w : ConfirmationWindow P) (io : Io σ ρ P E) (position : P) (event : E)
    {row r : Row} (h : (w.acceptSeeded io position event row).1.Holds r) :
    r = row ∨ w.Holds r := by
  obtain ⟨k, p, hp, hr⟩ := h
  rw [acceptSeeded_getElem?] at hp
  split at hp
  · rw [← Option.some.inj hp] at hr
    rcases hq : w.pending[Position.sortKey position]? with _ | q <;> rw [hq] at hr
    · exact Or.inl (List.mem_singleton.mp hr)
    · rcases List.mem_append.mp hr with hr | hr
      · exact Or.inr ⟨_, q, hq, hr⟩
      · exact Or.inl (List.mem_singleton.mp hr)
  · exact Or.inr ⟨k, p, hp, hr⟩

theorem holds_finalize {w : ConfirmationWindow P} {b : Nat} {p : Pending P} {row : Row}
    (h : (w.finalize b p).Holds row) : w.Holds row := by
  obtain ⟨k, q, hq, hr⟩ := h
  exact ⟨k, q, finalize_getElem? k hq, hr⟩

theorem steps_flushLoop {bs : List Nat} : ∀ {w : ConfirmationWindow P}
    {io : Io (Watched σ P) Record P E}, Conforms D w.core w.Holds io →
      Steps D w.core (w.flushLoop io bs).1.core (w.flushLoop io bs).1.Holds io
        (w.flushLoop io bs).2 := by
  induction bs with
  | nil => exact fun h => h.stays
  | cons b bs ih =>
    intro w io h
    unfold flushLoop
    rcases hp : w.pending[b]? with _ | p
    · exact ih h
    · obtain ⟨hg, ha⟩ := h.flush p.position p.rows fun r hr => ⟨b, p, hp, hr⟩
      rcases hf : w.core.flush io p.position p.rows with ⟨_ | _, core, io'⟩ <;> simp only [hf]
      · rw [hf] at hg ha
        exact ⟨hg, ha.drop fun r hr => absurd hr (not_holds_empty rfl r)⟩
      · rw [hf] at hg ha
        have hstep := ih (w := ({ w with core } : ConfirmationWindow P).finalize b p)
          (ha.drop fun r hr => holds_finalize (w := { w with core }) hr)
        exact ⟨hg.trans hstep.grows, hstep.aligned⟩

theorem steps_flushMatured {w : ConfirmationWindow P} (h : Conforms D w.core w.Holds io) :
    Steps D w.core (w.flushMatured io).1.core (w.flushMatured io).1.Holds io
      (w.flushMatured io).2 := by
  unfold flushMatured
  rcases w.head with _ | head
  · exact h.stays
  · exact steps_flushLoop h

omit [Position P] [Store σ P] in
/-- Halting drops every group. -/
theorem steps_failWith {w : ConfirmationWindow P} (h : Conforms D w.core w.Holds io)
    (reason : HaltReason P) :
    Steps D w.core (w.failWith io reason).1.core (w.failWith io reason).1.Holds io
      (w.failWith io reason).2 := by
  refine ⟨⟨fun _ hs => hs, fun _ hs => hs⟩, ?_⟩
  exact (h.drop fun r hr => absurd hr (not_holds_empty rfl r)).unhealthy false _

theorem steps_record {w : ConfirmationWindow P} (h : Conforms D w.core w.Holds io) (position : P)
    {event : E} (hD : D event) :
    Steps D w.core (w.record io position event).1.core (w.record io position event).1.Holds io
      (w.record io position event).2.1 := by
  unfold record
  simp only
  split
  · exact h.stays
  split
  · exact h.stays
  split
  · exact steps_failWith h _
  rcases h.encode hD with ⟨row, core, io', he, hg, ha⟩ | ⟨core, io', he, hg, ha⟩ <;> simp only [he]
  · obtain ⟨hcore, ⟨effects, hio⟩, hholds⟩ :=
      accept_quiet ({ w with core } : ConfirmationWindow P) io' position event row
    have hw : Conforms D
        (({ w with core } : ConfirmationWindow P).accept io' position event row).1.core
        (({ w with core } : ConfirmationWindow P).accept io' position event row).1.Holds
        (({ w with core } : ConfirmationWindow P).accept io' position event row).2.1 := by
      rw [hcore, hio]
      exact (ha.drop hholds).unhealthy _ _
    have hstep := steps_flushMatured hw
    refine ⟨hg.trans (.trans ?_ hstep.grows), hstep.aligned⟩
    rw [hcore, hio]
    exact ⟨fun _ hs => hs, fun _ hs => hs⟩
  · exact ⟨hg, ha.drop fun r hr => absurd hr (not_holds_empty rfl r)⟩

theorem steps_recordSeeded {w : ConfirmationWindow P} (h : Conforms D w.core w.Holds io)
    (position : P) {event : E} (hD : D event) :
    Steps D w.core (w.recordSeeded io position event).1.core
      (w.recordSeeded io position event).1.Holds io (w.recordSeeded io position event).2.1 := by
  unfold recordSeeded
  simp only
  split
  · exact h.stays
  split
  · exact h.stays
  split
  · exact steps_failWith h _
  rcases h.encode hD with ⟨row, core, io', he, hg, ha⟩ | ⟨core, io', he, hg, ha⟩ <;> simp only [he]
  · have hholds : ∀ r,
        (({ w with core } : ConfirmationWindow P).acceptSeeded io' position event row).1.Holds r →
          r = row ∨ w.Holds r := fun r hr => holds_acceptSeeded _ io' position event hr
    have hw : Conforms D
        (({ w with core } : ConfirmationWindow P).acceptSeeded io' position event row).1.core
        (({ w with core } : ConfirmationWindow P).acceptSeeded io' position event row).1.Holds
        (({ w with core } : ConfirmationWindow P).acceptSeeded io' position event row).2 :=
      (ha.drop hholds).unhealthy _ _
    have hstep := steps_flushMatured hw
    exact ⟨hg.trans ⟨hstep.grows.schema, hstep.grows.record⟩, hstep.aligned⟩
  · exact ⟨hg, ha.drop fun r hr => absurd hr (not_holds_empty rfl r)⟩

omit [Store σ P] in
theorem steps_retract {w : ConfirmationWindow P} (h : Conforms D w.core w.Holds io) (position : P) :
    Steps D w.core (w.retract io position).1.core (w.retract io position).1.Holds io
      (w.retract io position).2 := by
  unfold retract
  simp only
  split
  · exact h.stays
  split
  · exact h.stays
  split
  · exact steps_failWith h _
  · refine ⟨⟨fun _ hs => hs, fun _ hs => hs⟩, ?_⟩
    exact (h.drop fun r hr => holds_rewind hr).unhealthy _ _

omit [Store σ P] in
theorem steps_absorb {w : ConfirmationWindow P} (h : Conforms D w.core w.Holds io)
    (settled : Option P) :
    Steps D w.core (w.absorb settled).core (w.absorb settled).Holds io io := by
  rw [absorb_core]
  refine ⟨.refl _ _, h.drop ?_⟩
  rintro r ⟨k, p, hp, hr⟩
  rw [absorb_pending] at hp
  exact ⟨k, p, hp, hr⟩

end ConfirmationWindow

/-! ### Every interleaving -/

/-- A call on one of the two writers of a subscription. -/
inductive WriterCall (P E : Type) where
  /-- `BlockWriter::record`, and the delivery of the event -/
  | settle (position : P) (event : E)
  /-- `BlockWriter::finish` -/
  | finish
  /-- `ConfirmationWindow::record_seeded`, and the delivery of the event -/
  | recordSeeded (position : P) (event : E)
  /-- `ConfirmationWindow::record`, and the delivery of the event -/
  | record (position : P) (event : E)
  /-- `ConfirmationWindow::retract` -/
  | retract (position : P)
  /-- `ConfirmationWindow::absorb` of the settled writer's watermark -/
  | absorb
  /-- `ConfirmationWindow::halt` -/
  | halt (reason : HaltReason P)

/-- The event that a call records. -/
def WriterCall.event? : WriterCall P E → Option E
  | .settle _ event => some event
  | .recordSeeded _ event => some event
  | .record _ event => some event
  | _ => none

namespace Pipeline

/-- One call. -/
def call [RecordOps ρ E] (s : Pipeline σ ρ P E) : WriterCall P E → Pipeline σ ρ P E
  | .settle position event =>
    let (settled, io, delivered) := s.settled.record s.io position event
    { s with settled, io := io.deliver position event delivered }
  | .finish =>
    let (settled, io) := s.settled.finish s.io
    { s with settled, io }
  | .recordSeeded position event =>
    let (window, io, delivered) := s.window.recordSeeded s.io position event
    { s with window, io := io.deliver position event delivered }
  | .record position event =>
    let (window, io, delivered) := s.window.record s.io position event
    { s with window, io := io.deliver position event delivered }
  | .retract position =>
    let (window, io) := s.window.retract s.io position
    { s with window, io }
  | .absorb => { s with window := s.window.absorb s.settled.watermark }
  | .halt reason =>
    let (window, io) := s.window.halt s.io reason
    { s with window, io }

/-- The core of one of the writers. -/
def coreOf (s : Pipeline σ ρ P E) : Writer → GapFreeWriter
  | .settled => s.settled.core
  | .window => s.window.core

/-- Whether a writer has a row buffered. -/
def Holds (s : Pipeline σ ρ P E) : Writer → Row → Prop
  | .settled, row => row ∈ s.settled.buffer
  | .window, row => s.window.Holds row

/-- The invariant of both writers. -/
def BothConform (D : E → Prop) (s : Pipeline (Watched σ P) Record P E) : Prop :=
  ∀ writer, Conforms D (s.coreOf writer) (s.Holds writer) s.io

/-- What happens to both writers. -/
def BothStep (D : E → Prop) (s s' : Pipeline (Watched σ P) Record P E) : Prop :=
  ∀ writer, Steps D (s.coreOf writer) (s'.coreOf writer) (s'.Holds writer) s.io s'.io

section Call

variable {s : Pipeline (Watched σ P) Record P E} {io' : Io (Watched σ P) Record P E}

omit [Position P] [Store σ P] in
theorem BothConform.settledStep (h : s.BothConform D) {settled : BlockWriter P}
    (hstep : Steps D s.settled.core settled.core (· ∈ settled.buffer) s.io io') :
    BothStep D s { s with settled, io := io' }
  | .settled => hstep
  | .window => (h .window).beside hstep

omit [Position P] [Store σ P] in
theorem BothConform.windowStep (h : s.BothConform D) {window : ConfirmationWindow P}
    (hstep : Steps D s.window.core window.core window.Holds s.io io') :
    BothStep D s { s with window, io := io' }
  | .settled => (h .settled).beside hstep
  | .window => hstep

theorem BothConform.call (h : s.BothConform D) (c : WriterCall P E) (hD : ∀ e ∈ c.event?, D e) :
    BothStep D s (s.call c) := by
  cases c with
  | settle position event =>
    have hstep := BlockWriter.steps_record (h .settled) position (hD event rfl)
    exact h.settledStep ⟨⟨hstep.grows.schema, hstep.grows.record⟩, hstep.aligned.unhealthy _ _⟩
  | finish => exact h.settledStep (BlockWriter.steps_finish (h .settled))
  | recordSeeded position event =>
    have hstep := ConfirmationWindow.steps_recordSeeded (h .window) position (hD event rfl)
    exact h.windowStep ⟨⟨hstep.grows.schema, hstep.grows.record⟩, hstep.aligned.unhealthy _ _⟩
  | record position event =>
    have hstep := ConfirmationWindow.steps_record (h .window) position (hD event rfl)
    exact h.windowStep ⟨⟨hstep.grows.schema, hstep.grows.record⟩, hstep.aligned.unhealthy _ _⟩
  | retract position => exact h.windowStep (ConfirmationWindow.steps_retract (h .window) position)
  | absorb => exact h.windowStep (ConfirmationWindow.steps_absorb (h .window) _)
  | halt reason => exact h.windowStep (ConfirmationWindow.steps_failWith (h .window) reason)

/-- What happens to both writers over a sequence of calls. -/
theorem BothConform.calls {calls : List (WriterCall P E)} :
    ∀ {s : Pipeline (Watched σ P) Record P E}, s.BothConform D →
      (∀ c ∈ calls, ∀ e ∈ c.event?, D e) → BothStep D s (calls.foldl Pipeline.call s) := by
  induction calls with
  | nil => exact fun h _ writer => (h writer).stays
  | cons c calls ih =>
    intro s h hD writer
    obtain ⟨hc, hcalls⟩ := List.forall_mem_cons.mp hD
    have hstep := h.call c hc
    have hrest := ih (fun writer => (hstep writer).aligned) hcalls writer
    exact ⟨(hstep writer).grows.trans hrest.grows, hrest.aligned⟩

end Call

/-- The writers before the first call, over a store that keeps what it is asked for. -/
def watched (store : σ) (record : Record) (depth : Nat) (seed windowSeed : Option P) :
    Pipeline (Watched σ P) Record P E :=
  ⟨.new seed, .new depth windowSeed, ⟨⟨store, []⟩, record, []⟩⟩

omit [Store σ P] in
theorem BothConform.watched (store : σ) (record : Record) (depth : Nat)
    (seed windowSeed : Option P) :
    BothConform D (Pipeline.watched (E := E) store record depth seed windowSeed)
  | .settled => ⟨nofun, fun _ hr => (nomatch hr), fun _ hx => (nomatch hx)⟩
  | .window => ⟨nofun, fun row hr => absurd hr (ConfirmationWindow.not_holds_empty rfl row),
      fun _ hx => (nomatch hx)⟩

/-- After every sequence of calls on the two writers, in any order and whatever fails: a writer that
holds rows has captured its schema; all captured schemas, of both writers and from then on, are one;
and every row that was passed to the store, whether or not it was written, is aligned with that
schema, so that the shape check lets it through. -/
theorem writers_aligned (store : σ) (record : Record) (depth : Nat) (seed windowSeed : Option P)
    (calls more : List (WriterCall P E)) :
    let s := calls.foldl call (watched store record depth seed windowSeed)
    let s' := more.foldl call s
    (∀ writer row, s.Holds writer row → (s.coreOf writer).schema.isSome) ∧
      (∀ writer, ∀ schema ∈ (s.coreOf writer).schema, schema ∈ (s'.coreOf writer).schema ∧
        ∀ writer', ∀ schema' ∈ (s'.coreOf writer').schema, schema' = schema) ∧
      ∀ x ∈ s.io.store.asked, checkRowShapes x.1 x.2.2 = .ok () ∧
        (∀ writer, ∀ schema ∈ (s.coreOf writer).schema, schema = x.1) ∧
        ∀ row ∈ x.2.2, ∃ event ∈ calls.filterMap WriterCall.event?, x.1.Aligned event row := by
  intro s s'
  have hD : ∀ c ∈ calls, ∀ e ∈ c.event?, e ∈ calls.filterMap WriterCall.event? :=
    fun c hc e he => List.mem_filterMap.mpr ⟨c, hc, he⟩
  have hs : BothConform (· ∈ calls.filterMap WriterCall.event?) s := fun writer =>
    ((BothConform.watched store record depth seed windowSeed).calls hD writer).aligned
  have hs' : BothStep (fun _ => True) s s' := by
    have hs : BothConform (fun _ => True) s := fun writer =>
      ((BothConform.watched store record depth seed windowSeed).calls (fun _ _ _ _ => trivial)
        writer).aligned
    exact hs.calls fun _ _ _ _ => trivial
  -- the first schema that a writer has is that of the record, which keeps it
  have hone : ∀ writer, ∀ schema ∈ (s.coreOf writer).schema, s.io.record.schema = some schema :=
    fun writer schema hm => (hs writer).captured schema hm
  refine ⟨fun writer row hr => ((hs writer).held row hr).1, fun writer schema hm => ?_,
    fun x hx => ?_⟩
  · refine ⟨(hs' writer).grows.schema schema hm, fun writer' schema' hm' => ?_⟩
    have hnow := (hs' writer).grows.record schema (hone writer schema hm)
    have hlater := (hs' writer').aligned.captured schema' hm'
    exact Option.some.inj (hlater.symm.trans hnow)
  · obtain ⟨hschema, hrows⟩ := (hs .settled).asked x hx
    have haligned : ∀ row ∈ x.2.2, ∃ event ∈ calls.filterMap WriterCall.event?,
        x.1.Aligned event row := by
      intro row hrow
      obtain ⟨schema, event, hs, he, ha⟩ := hrows row hrow
      rw [hschema] at hs
      rw [Option.some.inj hs]
      exact ⟨event, he, ha⟩
    refine ⟨checkRowShapes_ok_iff.mpr fun row hrow => ?_, fun writer schema hm => ?_, haligned⟩
    · obtain ⟨event, -, ha⟩ := haligned row hrow
      exact ha.fits
    · exact Option.some.inj ((hone writer schema hm).symm.trans hschema)

/-! ### A subscription as a sequence of calls -/

section Subscription

variable [RecordOps ρ E]

/-- The call for an item of the backfill. -/
def backfillCall (finalCut : Option Nat) (item : P × E) : WriterCall P E :=
  if finalCut.any (fun cut => decide (Position.sortKey item.1 ≤ cut)) then .settle item.1 item.2
  else .recordSeeded item.1 item.2

/-- The call for an item of the live stream. -/
def liveCall : Indexed P E → WriterCall P E
  | .event position event => .record position event
  | .retract position => .retract position

omit [SerdeJson E] in
theorem backfillStep_eq_call (finalCut : Option Nat) (s : Pipeline σ ρ P E) (item : P × E) :
    s.backfillStep finalCut item = s.call (backfillCall finalCut item) := by
  unfold backfillStep backfillCall
  split <;> rfl

omit [SerdeJson E] in
theorem liveStep_eq_call (s : Pipeline σ ρ P E) (item : Indexed P E) :
    s.liveStep item = s.call (liveCall item) := by
  cases item <;> rfl

omit [SerdeJson E] in
/-- A subscription is a sequence of calls. -/
theorem persistAndEmit_eq_calls (backfill : List (P × E)) (live : List (Indexed P E)) (store : σ)
    (record : ρ) (depth : Nat) (finalCut : Option Nat) (seed : Option P) :
    ∃ last, (last = .absorb ∨ last = .halt .settledHalted) ∧
      persistAndEmit backfill live store record depth finalCut seed
        = (backfill.map (backfillCall finalCut) ++ .finish :: last :: live.map liveCall).foldl call
          (start store record depth finalCut seed) := by
  have hbackfill : backfill.foldl (backfillStep finalCut) (start store record depth finalCut seed)
      = (backfill.map (backfillCall finalCut)).foldl call
        (start store record depth finalCut seed) := by
    rw [List.foldl_map]
    exact congrArg (fun f => backfill.foldl f _)
      (funext fun s => funext (backfillStep_eq_call finalCut s))
  have hlive : ∀ s : Pipeline σ ρ P E, live.foldl liveStep s
      = (live.map liveCall).foldl call s := by
    intro s
    rw [List.foldl_map]
    exact congrArg (fun f => live.foldl f s) (funext fun s => funext (liveStep_eq_call s))
  have hsettle : ∀ s : Pipeline σ ρ P E, ∃ last, (last = .absorb ∨ last = .halt .settledHalted) ∧
      s.settle = (s.call .finish).call last := by
    intro s
    by_cases hh : (s.settled.finish s.io).1.core.healthy = true
    · exact ⟨.absorb, Or.inl rfl, s.settle_of_healthy hh⟩
    · exact ⟨.halt .settledHalted, Or.inr rfl,
        s.settle_of_unhealthy (Bool.eq_false_iff.mpr hh)⟩
  obtain ⟨last, hlast, hs⟩ := hsettle (backfill.foldl (backfillStep finalCut)
    (start store record depth finalCut seed))
  refine ⟨last, hlast, ?_⟩
  unfold persistAndEmit
  rw [hlive, hs, hbackfill, List.foldl_append]
  rfl

end Subscription

end Pipeline

end ArtemisLight
