import ArtemisLight.Persistence.RecordOps
import ArtemisLight.Persistence.Store

/-!
# The gap-free writer core

`GapFreeWriter` is the safety core shared by `BlockWriter` and `ConfirmationWindow`: the captured
write schema and a sticky health flag.  The store handle and the record are shared by both writers,
so they live in `Io`, which also keeps the list of effects of the subscription in the order they
happen.  A consumer that stops polling, or a crash, leaves a prefix of that list.
-/

namespace ArtemisLight

/-- Which of the two writers of a subscription acted. -/
inductive Writer where
  /-- The `BlockWriter` of the settled backfill range. -/
  | settled
  /-- The `ConfirmationWindow`. -/
  | window
  deriving DecidableEq, Repr

/-- Why a writer went permanently unhealthy: one constructor for each message the source logs. -/
inductive HaltReason (P : Type) where
  /-- failed to encode row -/
  | encode (e : Error)
  /-- failed to persist position; halting persistence -/
  | write (e : Error)
  /-- position arrived after the open group's (reorg or unordered source) -/
  | unordered (position cur : P)
  /-- position arrived after sort key `head` in the backfill tail (unordered source) -/
  | unorderedSeed (position : P) (head : Nat)
  /-- position re-observed at/below the watermark (reorg deeper than confirmation depth) -/
  | reobserved (position : P) (depth : Nat)
  /-- position retracted at/below the watermark (reorg deeper than confirmation depth) -/
  | retracted (position : P) (depth : Nat)
  /-- backfill persistence halted below the confirmation window -/
  | settledHalted
  deriving DecidableEq, Repr

/-- What a subscription does, one event at a time.  `accepted`, `rewound`, `rebuilt` and
`suppressed` are not visible from outside: they record that a row entered a writer's buffer, that
`ConfirmationWindow.rewind` ran, that a seeded group was rebuilt on its first live contact, and that
an event was not delivered. -/
inductive Effect (P E : Type) where
  | accepted (writer : Writer) (position : P) (event : E) (row : Row)
  | rewound (key : Nat)
  | rebuilt (key : Nat)
  | wrote (writer : Writer) (position : P) (rows : List Row)
  | halted (writer : Writer) (reason : HaltReason P)
  | yielded (event : E)
  | suppressed (position : P) (event : E)
  deriving DecidableEq

/-- The handles both writers share, and the effects so far. -/
structure Io (σ ρ P E : Type) where
  store : σ
  record : ρ
  effects : List (Effect P E)

variable {σ ρ P E : Type}

/-- Append one effect. -/
def Io.emit (io : Io σ ρ P E) (effect : Effect P E) : Io σ ρ P E :=
  { io with effects := io.effects ++ [effect] }

/-- The gap-free-prefix safety core: the write schema, captured on the first successful encode, and
the health flag.  `writer` only labels the effects. -/
structure GapFreeWriter where
  writer : Writer
  schema : Option TableSchema
  healthy : Bool
  deriving DecidableEq

namespace GapFreeWriter

def new (writer : Writer) : GapFreeWriter := ⟨writer, none, true⟩

/-- Mark the writer permanently unhealthy and log why. -/
def fail (core : GapFreeWriter) (io : Io σ ρ P E) (reason : HaltReason P) :
    GapFreeWriter × Io σ ρ P E :=
  ({ core with healthy := false }, io.emit (.halted core.writer reason))

/-- Encode one event into a row, or go unhealthy if it cannot be persisted. -/
def encode [RecordOps ρ E] (core : GapFreeWriter) (io : Io σ ρ P E) (event : E) :
    Option Row × GapFreeWriter × Io σ ρ P E :=
  match RecordOps.encode io.record event with
  | (.ok row, record) =>
    let schema := if core.schema.isNone then RecordOps.schema (E := E) record else core.schema
    (some row, { core with schema }, { io with record })
  | (.error e, record) => (none, core.fail { io with record } (.encode e))

/-- Write one position-group's buffered rows in a single transaction; on failure go unhealthy.
Without a captured schema no event was ever encoded, and there is nothing to persist. -/
def flush [Store σ P] (core : GapFreeWriter) (io : Io σ ρ P E) (position : P) (rows : List Row) :
    Bool × GapFreeWriter × Io σ ρ P E :=
  match core.schema with
  | none => (true, core, io)
  | some schema =>
    match Store.write io.store schema position rows with
    | (.ok (), store) => (true, core, { io with store }.emit (.wrote core.writer position rows))
    | (.error e, store) =>
      (false, { core with healthy := false },
        { io with store }.emit (.halted core.writer (.write e)))

/-- An encode either yields the event's row, with the write schema captured from then on, or halts
the writer. -/
theorem encode_cases [RecordOps ρ E] (core : GapFreeWriter) (io : Io σ ρ P E) (event : E) :
    (∃ row schema record, RecordOps.encode io.record event = (.ok row, record) ∧
      core.encode io event = (some row, { core with schema := some schema }, { io with record })) ∨
    ∃ e record, RecordOps.encode io.record event = (.error e, record) ∧
      core.encode io event = (none, { core with healthy := false },
        ({ io with record } : Io σ ρ P E).emit (.halted core.writer (.encode e))) := by
  rcases h : RecordOps.encode io.record event with ⟨e | row, record⟩
  · exact Or.inr ⟨e, record, rfl, by simp only [encode, h, fail]⟩
  · obtain ⟨schema, hschema, -⟩ := RecordOps.schema_encode h
    rcases hc : core.schema with _ | s
    · exact Or.inl ⟨row, schema, record, rfl, by simp [encode, h, hc, hschema]⟩
    · exact Or.inl ⟨row, s, record, rfl, by simp [encode, h, hc]⟩

/-- A flush with the schema at hand either writes the group or halts the writer. -/
theorem flush_cases [Store σ P] {core : GapFreeWriter} {schema : TableSchema}
    (hs : core.schema = some schema) (io : Io σ ρ P E) (position : P) (rows : List Row) :
    (∃ store, Store.write io.store schema position rows = (.ok (), store) ∧
      core.flush io position rows
        = (true, core, ({ io with store } : Io σ ρ P E).emit (.wrote core.writer position rows))) ∨
    ∃ e store, Store.write io.store schema position rows = (.error e, store) ∧
      core.flush io position rows = (false, { core with healthy := false },
        ({ io with store } : Io σ ρ P E).emit (.halted core.writer (.write e))) := by
  rcases h : Store.write io.store schema position rows with ⟨e | u, store⟩
  · exact Or.inr ⟨e, store, rfl, by simp only [flush, hs, h]⟩
  · exact Or.inl ⟨store, rfl, by simp only [flush, hs, h]⟩

end GapFreeWriter

@[simp] theorem Io.emit_effects (io : Io σ ρ P E) (x : Effect P E) :
    (io.emit x).effects = io.effects ++ [x] := rfl

@[simp] theorem Io.emit_record (io : Io σ ρ P E) (x : Effect P E) :
    (io.emit x).record = io.record := rfl

@[simp] theorem Io.emit_store (io : Io σ ρ P E) (x : Effect P E) : (io.emit x).store = io.store :=
  rfl

end ArtemisLight
