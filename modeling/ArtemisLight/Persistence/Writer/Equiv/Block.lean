import ArtemisLight.Persistence.Writer.Block
import ArtemisLight.Persistence.Writer.Effects

/-!
# What the operations of the block writer do

Each operation is described case by case.
-/

namespace ArtemisLight

namespace BlockWriter

variable {σ ρ P E : Type} [Position P]

/-- The writer after a halt. -/
def halted (w : BlockWriter P) (current : Option P) : BlockWriter P :=
  { w with core := { w.core with healthy := false }, buffer := [], current }

/-- The writer with a write schema captured. -/
def withSchema (w : BlockWriter P) (schema : TableSchema) : BlockWriter P :=
  { w with core := { w.core with schema := some schema } }

/-- The writer after the group at `cur` has been written. -/
def closed (w : BlockWriter P) (cur : P) : BlockWriter P :=
  { w with buffer := [], current := none, watermark := some (Position.advance w.watermark cur) }

/-- The writer with one more row in the open group. -/
def pushed (w : BlockWriter P) (position : P) (row : Row) : BlockWriter P :=
  { w with current := some (Position.advance w.current position), buffer := w.buffer ++ [row] }

variable [Store σ P]

/-- What recording an event does, unless the event is suppressed. -/
inductive Recorded [RecordOps ρ E] (w : BlockWriter P) (io : Io σ ρ P E) (position : P)
    (event : E) :
    BlockWriter P × Io σ ρ P E × Bool → Prop
  | unhealthy (hh : w.core.healthy = false) : Recorded w io position event (w, io, true)
  | encode (hh : w.core.healthy = true) (e : Error) (record : ρ)
      (he : RecordOps.encode io.record event = (.error e, record)) :
      Recorded w io position event (w.halted w.current,
        ({ io with record } : Io σ ρ P E).emit (.halted w.core.writer (.encode e)), true)
  | unordered (hh : w.core.healthy = true) (row : Row) (schema : TableSchema) (record : ρ)
      (he : RecordOps.encode io.record event = (.ok row, record)) (cur : P)
      (hc : w.current = some cur) (hlt : Position.sortKey position < Position.sortKey cur) :
      Recorded w io position event ((w.withSchema schema).halted w.current,
        ({ io with record } : Io σ ρ P E).emit (.halted w.core.writer (.unordered position cur)),
          true)
  | extends (hh : w.core.healthy = true) (row : Row) (schema : TableSchema) (record : ρ)
      (he : RecordOps.encode io.record event = (.ok row, record))
      (hc : ∀ cur ∈ w.current, Position.sortKey cur = Position.sortKey position) :
      Recorded w io position event ((w.withSchema schema).pushed position row,
        ({ io with record } : Io σ ρ P E).emit (.accepted .settled position event row), true)
  | write (hh : w.core.healthy = true) (row : Row) (schema : TableSchema) (record : ρ)
      (he : RecordOps.encode io.record event = (.ok row, record)) (cur : P)
      (hc : w.current = some cur) (hlt : Position.sortKey cur < Position.sortKey position)
      (e : Error) (store : σ)
      (hw : Store.write io.store schema cur w.buffer = (.error e, store)) :
      Recorded w io position event ((w.withSchema schema).halted none,
        (⟨store, record, io.effects⟩ : Io σ ρ P E).emit (.halted w.core.writer (.write e)), true)
  | advances (hh : w.core.healthy = true) (row : Row) (schema : TableSchema) (record : ρ)
      (he : RecordOps.encode io.record event = (.ok row, record)) (cur : P)
      (hc : w.current = some cur) (hlt : Position.sortKey cur < Position.sortKey position)
        (store : σ)
      (hw : Store.write io.store schema cur w.buffer = (.ok (), store)) :
      Recorded w io position event (((w.withSchema schema).closed cur).pushed position row,
        (⟨store, record, io.effects ++ [.wrote w.core.writer cur w.buffer,
          .accepted .settled position event row]⟩ : Io σ ρ P E), true)

/-- A healthy writer of a deduplicating source suppresses what is covered. -/
theorem record_covered [RecordOps ρ E] (w : BlockWriter P) (io : Io σ ρ P E) (position : P)
    (event : E)
    (hh : w.core.healthy = true) (hP : Position.reobservation P = .dedupe)
    (hc : w.covered position = true) : w.record io position event = (w, io, false) := by
  simp [record, hh, hP, hc]

/-- What else it records. -/
theorem record_uncovered [RecordOps ρ E] (w : BlockWriter P) (io : Io σ ρ P E) (position : P)
    (event : E) (hP : ¬ (Position.reobservation P = .dedupe ∧ w.covered position = true)) :
    Recorded w io position event (w.record io position event) := by
  cases hh : w.core.healthy
  · have : w.record io position event = (w, io, true) := by simp [record, hh]
    rw [this]
    exact .unhealthy hh
  · rcases GapFreeWriter.encode_cases w.core io event with
      ⟨row, schema, record, he, hc⟩ | ⟨e, record, he, hc⟩
    · rcases hcur : w.current with _ | cur
      · have : w.record io position event = ((w.withSchema schema).pushed position row,
            ({ io with record } : Io σ ρ P E).emit (.accepted .settled position event row),
              true) := by
          simp [BlockWriter.record, hh, hP, hc, hcur, push, pushed, withSchema]
        rw [this]
        exact .extends hh row schema record he (by simp [hcur])
      · rcases Nat.lt_trichotomy (Position.sortKey position) (Position.sortKey cur) with
          hlt | heq | hlt
        · have : w.record io position event = ((w.withSchema schema).halted w.current,
              ({ io with record } : Io σ ρ P E).emit
                (.halted w.core.writer (.unordered position cur)),
              true) := by
            simp [BlockWriter.record, hh, hP, hc, hcur, hlt, GapFreeWriter.fail, halted, withSchema]
          rw [this]
          exact .unordered hh row schema record he cur hcur hlt
        · have : w.record io position event = ((w.withSchema schema).pushed position row,
              ({ io with record } : Io σ ρ P E).emit (.accepted .settled position event row),
              true) := by
            simp [BlockWriter.record, hh, hP, hc, hcur, heq, push, pushed, withSchema]
          rw [this]
          exact .extends hh row schema record he (by simp [hcur, heq])
        · have hnlt : ¬ Position.sortKey position < Position.sortKey cur := by omega
          rcases hf : Store.write io.store schema cur w.buffer with ⟨e | u, store⟩
          · have : w.record io position event = ((w.withSchema schema).halted none,
                (⟨store, record, io.effects⟩ : Io σ ρ P E).emit (.halted w.core.writer (.write e)),
                true) := by
              simp [BlockWriter.record, hh, hP, hc, hcur, hlt, hnlt, GapFreeWriter.flush, hf,
                halted,
                withSchema]
            rw [this]
            exact .write hh row schema record he cur hcur hlt e store hf
          · have :
              w.record io position event = (((w.withSchema schema).closed cur).pushed position row,
                (⟨store, record, io.effects ++ [.wrote w.core.writer cur w.buffer,
                  .accepted .settled position event row]⟩ : Io σ ρ P E), true) := by
              simp [BlockWriter.record, hh, hP, hc, hcur, hlt, hnlt, GapFreeWriter.flush, hf, push,
                pushed, closed, withSchema, Io.emit]
            rw [this]
            exact .advances hh row schema record he cur hcur hlt store hf
    · have : w.record io position event = (w.halted w.current,
          ({ io with record } : Io σ ρ P E).emit (.halted w.core.writer (.encode e)), true) := by
        simp [BlockWriter.record, hh, hP, hc, halted]
      rw [this]
      exact .encode hh e record he

theorem record_recorded [RecordOps ρ E] (hP : Position.reobservation P = .halt) (w : BlockWriter P)
    (io : Io σ ρ P E) (position : P) (event : E) :
    Recorded w io position event (w.record io position event) := by
  apply record_uncovered
  rw [hP]
  exact fun h => nomatch h.1

/-- The end of the range writes or halts, and does nothing else. -/
theorem finish_quiet (w : BlockWriter P) (io : Io σ ρ P E) : ∃ store xs,
    (w.finish io).2 = ⟨store, io.record, io.effects ++ xs⟩ ∧ ∀ x ∈ xs, x.Quiet := by
  cases hh : w.core.healthy
  · exact ⟨io.store, [], by simp [finish, hh], by simp⟩
  rcases hcur : w.current with _ | cur
  · exact ⟨io.store, [], by simp [finish, hh, hcur], by simp⟩
  rcases hs : w.core.schema with _ | schema
  · exact ⟨io.store, [], by simp [finish, hh, hcur, GapFreeWriter.flush, hs], by simp⟩
  rcases hw : Store.write io.store schema cur w.buffer with ⟨e | u, store⟩
  · exact ⟨store, [.halted w.core.writer (.write e)],
      by simp [finish, hh, hcur, GapFreeWriter.flush, hs, hw, Io.emit], by simp [Effect.Quiet]⟩
  · exact ⟨store, [.wrote w.core.writer cur w.buffer],
      by simp [finish, hh, hcur, GapFreeWriter.flush, hs, hw, Io.emit], by simp [Effect.Quiet]⟩

/-- What the end of the range does. -/
inductive Finished (w : BlockWriter P) (io : Io σ ρ P E) : BlockWriter P × Io σ ρ P E → Prop
  | unhealthy (hh : w.core.healthy = false) : Finished w io (w, io)
  | empty (hh : w.core.healthy = true) (hc : w.current = none) : Finished w io (w, io)
  | write (hh : w.core.healthy = true) (cur : P) (hc : w.current = some cur) (schema : TableSchema)
      (hs : w.core.schema = some schema) (e : Error) (store : σ)
      (hw : Store.write io.store schema cur w.buffer = (.error e, store)) :
      Finished w io (w.halted none,
        ({ io with store } : Io σ ρ P E).emit (.halted w.core.writer (.write e)))
  | wrote (hh : w.core.healthy = true) (cur : P) (hc : w.current = some cur) (schema : TableSchema)
      (hs : w.core.schema = some schema) (store : σ)
      (hw : Store.write io.store schema cur w.buffer = (.ok (), store)) :
      Finished w io (w.closed cur,
        ({ io with store } : Io σ ρ P E).emit (.wrote w.core.writer cur w.buffer))

theorem finish_finished (w : BlockWriter P) (io : Io σ ρ P E)
    (hsch : w.current.isSome → w.core.schema.isSome) : Finished w io (w.finish io) := by
  cases hh : w.core.healthy
  · have : w.finish io = (w, io) := by simp [finish, hh]
    rw [this]
    exact .unhealthy hh
  · rcases hcur : w.current with _ | cur
    · have : w.finish io = (w, io) := by simp [finish, hh, hcur]
      rw [this]
      exact .empty hh hcur
    · obtain ⟨schema, hs⟩ := Option.isSome_iff_exists.mp (hsch (by simp [hcur]))
      rcases hf : Store.write io.store schema cur w.buffer with ⟨e | u, store⟩
      · have : w.finish io = (w.halted none,
            ({ io with store } : Io σ ρ P E).emit (.halted w.core.writer (.write e))) := by
          simp [finish, hh, hcur, GapFreeWriter.flush, hs, hf, halted]
        rw [this]
        exact .write hh cur hcur schema hs e store hf
      · have : w.finish io = (w.closed cur,
            ({ io with store } : Io σ ρ P E).emit (.wrote w.core.writer cur w.buffer)) := by
          simp [finish, hh, hcur, GapFreeWriter.flush, hs, hf, closed]
        rw [this]
        exact .wrote hh cur hcur schema hs store hf

end BlockWriter

end ArtemisLight
