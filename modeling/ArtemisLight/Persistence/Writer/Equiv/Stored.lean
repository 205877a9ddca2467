import ArtemisLight.Persistence.Writer.Effects
import ArtemisLight.Persistence.Writer.Pipeline

/-!
# The store behind a trace

The store of a subscription holds, at every step, what `Archive.after` reads off the effects: the
archive it held before with the written groups committed.
-/

namespace ArtemisLight

variable {σ ρ P E : Type} [Position P] [Archival σ P] [RecordOps ρ E]

/-- The store's archive for `table` is `a` with the writes of the trace committed, and both writers
write to `table`. -/
structure Stored (table : String) (a : Archive P) (core : GapFreeWriter) (io : Io σ ρ P E) :
    Prop where
  schema : ∀ schema ∈ core.schema, schema.table = table
  record : RecordOps.table E io.record = table
  archive : Archival.archive io.store table = a.after io.effects

namespace Stored

variable {table : String} {a : Archive P} {core : GapFreeWriter} {io : Io σ ρ P E}

/-- An effect that is not a write leaves the archive as it is. -/
theorem emit (h : Stored table a core io) {x : Effect P E} (hx : x.wrote? = none) :
    Stored table a core (io.emit x) := by
  refine ⟨h.schema, h.record, ?_⟩
  have hw : writes [x] = [] := by simp [writes, hx]
  rw [Io.emit_store, Io.emit_effects, Archive.after_append, h.archive, Archive.after, Archive.after,
    hw]
  rfl

theorem deliver (h : Stored table a core io) (position : P) (event : E) (delivered : Bool) :
    Stored table a core (io.deliver position event delivered) :=
  h.emit (by cases delivered <;> rfl)

/-- The health flag and the label do not matter. -/
theorem core_congr (h : Stored table a core io) {core' : GapFreeWriter}
    (hc : core'.schema = core.schema) : Stored table a core' io :=
  ⟨by rw [hc]; exact h.schema, h.record, h.archive⟩

theorem fail (h : Stored table a core io) (reason : HaltReason P) :
    Stored table a (core.fail io reason).1 (core.fail io reason).2 :=
  (h.emit rfl).core_congr rfl

theorem encode (h : Stored table a core io) (event : E) :
    Stored table a (core.encode io event).2.1 (core.encode io event).2.2 := by
  have hrec : ∀ record res, RecordOps.encode io.record event = (res, record) →
      Stored table a core ({ io with record } : Io σ ρ P E) := fun record res he =>
    ⟨h.schema, (RecordOps.table_encode he).trans h.record, h.archive⟩
  rcases he : RecordOps.encode io.record event with ⟨e | row, record⟩
  · simp only [GapFreeWriter.encode, he]
    exact (hrec _ _ he).fail _
  · obtain ⟨schema, hschema, htable⟩ := RecordOps.schema_encode he
    simp only [GapFreeWriter.encode, he]
    refine ⟨fun s hs => ?_, (hrec _ _ he).record, h.archive⟩
    simp only at hs
    split at hs
    · rw [hschema, Option.mem_def, Option.some.injEq] at hs
      rw [← hs, htable, h.record]
    · exact h.schema s hs

theorem flush (h : Stored table a core io) (position : P) (rows : List Row) :
    Stored table a (core.flush io position rows).2.1 (core.flush io position rows).2.2 := by
  rcases hs : core.schema with _ | schema
  · simp only [GapFreeWriter.flush, hs]
    exact h
  · obtain rfl := h.schema schema hs
    rcases GapFreeWriter.flush_cases hs io position rows with ⟨store, hw, hf⟩ | ⟨e, store, hw, hf⟩
    · rw [hf]
      refine ⟨h.schema, h.record, ?_⟩
      rw [Io.emit_store, Archival.archive_write_ok hw, h.archive, Io.emit_effects,
        Archive.after_append]
      rfl
    · rw [hf]
      refine ⟨h.schema, h.record, ?_⟩
      rw [Io.emit_store, Archival.archive_write_error hw]
      exact (h.emit (x := .halted core.writer (.write e)) rfl).archive

/-- The other writer's core. -/
theorem of_core (h : Stored table a core io) {core' : GapFreeWriter}
    (hc : ∀ schema ∈ core'.schema, schema.table = table) : Stored table a core' io :=
  ⟨hc, h.record, h.archive⟩

end Stored

/-! ### The block writer -/

namespace BlockWriter

variable {table : String} {a : Archive P} {w : BlockWriter P} {io : Io σ ρ P E}

theorem push_stored (h : Stored table a w.core io) (position : P) (event : E) (row : Row) :
    Stored table a (w.push io position event row).1.core (w.push io position event row).2 :=
  h.emit rfl

theorem record_stored (h : Stored table a w.core io) (position : P) (event : E) :
    Stored table a (w.record io position event).1.core (w.record io position event).2.1 := by
  unfold BlockWriter.record
  split
  · exact h
  split
  · exact h
  have henc := h.encode event
  generalize w.core.encode io event = r at henc
  obtain ⟨_ | row, core, io'⟩ := r
  · exact henc
  rcases w.current with _ | cur
  · exact push_stored (w := { w with core }) henc position event row
  simp only
  split
  · exact henc.fail _
  split
  · have hfl := henc.flush cur w.buffer
    generalize core.flush io' cur w.buffer = r at hfl
    obtain ⟨_ | _, core', io''⟩ := r
    · exact hfl
    · exact push_stored (w := { w with core := core' }) hfl position event row
  · exact push_stored (w := { w with core }) henc position event row

theorem finish_stored (h : Stored table a w.core io) :
    Stored table a (w.finish io).1.core (w.finish io).2 := by
  unfold BlockWriter.finish
  split
  · rcases w.current with _ | cur
    · exact h
    · have hfl := h.flush cur w.buffer
      simp only
      generalize w.core.flush io cur w.buffer = r at hfl
      obtain ⟨_ | _, core, io'⟩ := r <;> exact hfl
  · exact h

end BlockWriter

/-! ### The confirmation window -/

namespace ConfirmationWindow

variable {table : String} {a : Archive P} {w : ConfirmationWindow P} {io : Io σ ρ P E}

theorem flushLoop_stored (bs : List Nat) (h : Stored table a w.core io) :
    Stored table a (w.flushLoop io bs).1.core (w.flushLoop io bs).2 := by
  induction bs generalizing w io with
  | nil => exact h
  | cons b bs ih =>
    unfold flushLoop
    rcases w.pending[b]? with _ | p
    · exact ih h
    · have hfl := h.flush p.position p.rows
      simp only
      generalize w.core.flush io p.position p.rows = r at hfl
      obtain ⟨_ | _, core, io'⟩ := r
      · exact hfl
      · exact ih (w := { w with core }.finalize b p) hfl

theorem flushMatured_stored (h : Stored table a w.core io) :
    Stored table a (w.flushMatured io).1.core (w.flushMatured io).2 := by
  unfold flushMatured
  rcases w.head with _ | head
  · exact h
  · exact flushLoop_stored _ h

theorem accept_stored (h : Stored table a w.core io) (position : P) (event : E) (row : Row) :
    Stored table a (w.accept io position event row).1.core
      (w.accept io position event row).2.1 := by
  have hfold : ∀ (w : ConfirmationWindow P) (io : Io σ ρ P E), Stored table a w.core io →
      Stored table a (w.fold io position event row).1.core (w.fold io position event row).2.1 := by
    intro w io h
    unfold fold
    simp only
    split
    · exact h.emit (x := .accepted .window position event row) rfl
    · refine Stored.emit (x := .accepted .window position event row) ?_ rfl
      split
      · exact h.emit (x := .rebuilt (Position.sortKey position)) rfl
      · exact h
  unfold accept
  simp only
  split
  · exact hfold _ _ (h.emit rfl)
  · exact hfold _ _ h

theorem record_stored (h : Stored table a w.core io) (position : P) (event : E) :
    Stored table a (w.record io position event).1.core (w.record io position event).2.1 := by
  unfold ConfirmationWindow.record
  simp only
  split
  · exact h
  split
  · exact h
  split
  · exact h.fail _
  have henc := h.encode event
  generalize w.core.encode io event = r at henc
  obtain ⟨_ | row, core, io'⟩ := r
  · exact henc
  · exact flushMatured_stored (accept_stored (w := { w with core }) henc position event row)

theorem recordSeeded_stored (h : Stored table a w.core io) (position : P) (event : E) :
    Stored table a (w.recordSeeded io position event).1.core
      (w.recordSeeded io position event).2.1 := by
  unfold recordSeeded
  simp only
  split
  · exact h
  split
  · exact h
  split
  · exact h.fail _
  have henc := h.encode event
  generalize w.core.encode io event = r at henc
  obtain ⟨_ | row, core, io'⟩ := r
  · exact henc
  · exact flushMatured_stored (w := ({ w with core }.acceptSeeded io' position event row).1)
      (henc.emit (x := .accepted .window position event row) rfl)

theorem retract_stored (h : Stored table a w.core io) (position : P) :
    Stored table a (w.retract io position).1.core (w.retract io position).2 := by
  unfold retract
  simp only
  split
  · exact h
  split
  · exact h
  split
  · exact h.fail _
  · exact h.emit rfl

end ConfirmationWindow

/-! ### The pipeline -/

section Pipeline

variable {table : String} {a : Archive P} {s : Pipeline σ ρ P E} {cut : Option Nat}

/-- Both writers of a pipeline write to the archive behind its trace. -/
def Pipeline.Stored (table : String) (a : Archive P) (s : Pipeline σ ρ P E) : Prop :=
  ArtemisLight.Stored table a s.settled.core s.io ∧ ArtemisLight.Stored table a s.window.core s.io

theorem Pipeline.Stored.backfillStep (h : s.Stored table a) (item : P × E) :
    (s.backfillStep cut item).Stored table a := by
  unfold Pipeline.backfillStep
  split
  · have hrec := (BlockWriter.record_stored h.1 item.1 item.2).deliver item.1 item.2
      (s.settled.record s.io item.1 item.2).2.2
    exact ⟨hrec, hrec.of_core h.2.schema⟩
  · have hrec := (ConfirmationWindow.recordSeeded_stored h.2 item.1 item.2).deliver item.1 item.2
      (s.window.recordSeeded s.io item.1 item.2).2.2
    exact ⟨hrec.of_core h.1.schema, hrec⟩

theorem Pipeline.Stored.settle (h : s.Stored table a) : s.settle.Stored table a := by
  have hfin := BlockWriter.finish_stored h.1
  unfold Pipeline.settle
  simp only
  split
  · refine ⟨hfin, hfin.of_core ?_⟩
    rcases (s.settled.finish s.io).1.watermark with _ | q <;> exact h.2.schema
  · have hhalt := (hfin.of_core h.2.schema).fail .settledHalted
    exact ⟨hhalt.of_core hfin.schema, hhalt⟩

theorem Pipeline.Stored.liveStep (h : s.Stored table a) (item : Indexed P E) :
    (s.liveStep item).Stored table a := by
  rcases item with ⟨position, event⟩ | position
  · have hrec := (ConfirmationWindow.record_stored h.2 position event).deliver position event
      (s.window.record s.io position event).2.2
    exact ⟨hrec.of_core h.1.schema, hrec⟩
  · have hret := ConfirmationWindow.retract_stored h.2 position
    exact ⟨hret.of_core h.1.schema, hret⟩

theorem Pipeline.Stored.start (store : σ) (record : ρ) (depth : Nat) (seed : Option P) :
    (Pipeline.start (E := E) store record depth cut seed).Stored (RecordOps.table E record)
      (Archival.archive store (RecordOps.table E record)) :=
  ⟨⟨by simp [Pipeline.start, BlockWriter.new, GapFreeWriter.new], rfl, rfl⟩,
    ⟨by simp [Pipeline.start, ConfirmationWindow.new, GapFreeWriter.new], rfl, rfl⟩⟩

theorem Pipeline.Stored.backfill (h : s.Stored table a) (backfill : List (P × E)) :
    (backfill.foldl (Pipeline.backfillStep cut) s).Stored table a :=
  foldl_preserves _ h fun _ item _ h => h.backfillStep item

/-- The store's archive after a backfill is the one before it with the trace's writes committed. -/
theorem archive_backfill (backfill : List (P × E)) (store : σ) (record : ρ) (depth : Nat)
    (seed : Option P) :
    Archival.archive (backfill.foldl (Pipeline.backfillStep cut)
        (Pipeline.start store record depth cut seed)).io.store (RecordOps.table E record)
      = (Archival.archive store (RecordOps.table E record)).after
          (backfill.foldl (Pipeline.backfillStep cut)
            (Pipeline.start store record depth cut seed)).io.effects :=
  ((Pipeline.Stored.start store record depth seed).backfill backfill).1.archive

/-- The store's archive after a subscription is the one before it with the trace's writes
committed. -/
theorem archive_persistAndEmit (backfill : List (P × E)) (live : List (Indexed P E)) (store : σ)
    (record : ρ) (depth : Nat) (seed : Option P) :
    Archival.archive (persistAndEmit backfill live store record depth cut seed).io.store
        (RecordOps.table E record)
      = (Archival.archive store (RecordOps.table E record)).after
          (persistAndEmit backfill live store record depth cut seed).io.effects := by
  have hback : (backfill.foldl (Pipeline.backfillStep cut)
      (Pipeline.start store record depth cut seed)).Stored (RecordOps.table E record)
        (Archival.archive store (RecordOps.table E record)) :=
    (Pipeline.Stored.start store record depth seed).backfill backfill
  exact (foldl_preserves (f := Pipeline.liveStep) (l := live) _ hback.settle
    fun s item _ h => Pipeline.Stored.liveStep h item).1.archive

end Pipeline

end ArtemisLight
