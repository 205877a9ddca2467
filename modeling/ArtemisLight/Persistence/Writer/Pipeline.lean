import ArtemisLight.Persistence.Writer.Block
import ArtemisLight.Persistence.Writer.Window

/-!
# The writer pipeline

`persistAndEmit` runs the backfill and then the live stream through the two writers.  Positions at
or below `finalCut` settle through the `BlockWriter`; the rest stay pending in the
`ConfirmationWindow`, seeded from the backfill tail and matured by the live tail.
-/

namespace ArtemisLight

/-- One item of a live position-indexed stream. -/
inductive Indexed (P E : Type) where
  /-- An event at its position. -/
  | event (position : P) (event : E)
  /-- Everything buffered at (and above) this position no longer happened. -/
  | retract (position : P)
  deriving DecidableEq, Repr

/-- The two writers of a subscription and their shared handles. -/
structure Pipeline (σ ρ P E : Type) where
  settled : BlockWriter P
  window : ConfirmationWindow P
  io : Io σ ρ P E

variable {σ ρ P E : Type} [Position P] [Store σ P] [RecordOps ρ E]

/-- Yield an event downstream if it is to be delivered. -/
def Io.deliver (io : Io σ ρ P E) (position : P) (event : E) (delivered : Bool) : Io σ ρ P E :=
  io.emit (if delivered then .yielded event else .suppressed position event)

namespace Pipeline

/-- The writers before the first event. -/
def start (store : σ) (record : ρ) (depth : Nat) (finalCut : Option Nat) (seed : Option P) :
    Pipeline σ ρ P E :=
  let windowSeed := match finalCut with
    | some cut => some (Position.advance seed (Position.fromSortKey cut))
    | none => seed
  ⟨.new seed, .new depth windowSeed, ⟨store, record, []⟩⟩

/-- One item of the backfill stream. -/
def backfillStep (finalCut : Option Nat) (s : Pipeline σ ρ P E) (item : P × E) :
    Pipeline σ ρ P E :=
  if finalCut.any (fun cut => decide (Position.sortKey item.1 ≤ cut)) then
    let (settled, io, delivered) := s.settled.record s.io item.1 item.2
    { s with settled, io := io.deliver item.1 item.2 delivered }
  else
    let (window, io, delivered) := s.window.recordSeeded s.io item.1 item.2
    { s with window, io := io.deliver item.1 item.2 delivered }

/-- The end of the backfill: the trailing settled group is written, and the window absorbs the
settled writer's watermark, or halts if the settled prefix has a hole. -/
def settle (s : Pipeline σ ρ P E) : Pipeline σ ρ P E :=
  let (settled, io) := s.settled.finish s.io
  if settled.core.healthy then ⟨settled, s.window.absorb settled.watermark, io⟩
  else
    let (window, io) := s.window.halt io .settledHalted
    ⟨settled, window, io⟩

/-- One item of the live stream. -/
def liveStep (s : Pipeline σ ρ P E) : Indexed P E → Pipeline σ ρ P E
  | .event position event =>
    let (window, io, delivered) := s.window.record s.io position event
    { s with window, io := io.deliver position event delivered }
  | .retract position =>
    let (window, io) := s.window.retract s.io position
    { s with window, io }

theorem backfillStep_of_le {cut : Option Nat} {c : Nat} (s : Pipeline σ ρ P E) {position : P}
    (event : E) (hc : c ∈ cut) (hle : Position.sortKey position ≤ c) :
    s.backfillStep cut (position, event) =
      { s with
        settled := (s.settled.record s.io position event).1
        io := (s.settled.record s.io position event).2.1.deliver position event
          (s.settled.record s.io position event).2.2 } := by
  unfold backfillStep
  rw [if_pos (by rw [Option.mem_def.mp hc]; simpa using hle)]

theorem backfillStep_of_lt {cut : Option Nat} (s : Pipeline σ ρ P E) {position : P} (event : E)
    (hlt : ∀ c ∈ cut, c < Position.sortKey position) :
    s.backfillStep cut (position, event) =
      { s with
        window := (s.window.recordSeeded s.io position event).1
        io := (s.window.recordSeeded s.io position event).2.1.deliver position event
          (s.window.recordSeeded s.io position event).2.2 } := by
  unfold backfillStep
  rw [if_neg ?_]
  rcases cut with _ | c
  · simp
  · simpa using hlt c rfl

omit [RecordOps ρ E] in
theorem settle_of_healthy (s : Pipeline σ ρ P E)
    (h : (s.settled.finish s.io).1.core.healthy = true) :
    s.settle = ⟨(s.settled.finish s.io).1, s.window.absorb (s.settled.finish s.io).1.watermark,
      (s.settled.finish s.io).2⟩ := by
  simp only [settle, h, if_true]

omit [RecordOps ρ E] in
theorem settle_of_unhealthy (s : Pipeline σ ρ P E)
    (h : (s.settled.finish s.io).1.core.healthy = false) :
    s.settle = ⟨(s.settled.finish s.io).1,
      (s.window.halt (s.settled.finish s.io).2 .settledHalted).1,
      (s.window.halt (s.settled.finish s.io).2 .settledHalted).2⟩ := by
  simp only [settle, h, Bool.false_eq_true, if_false]

theorem liveStep_event (s : Pipeline σ ρ P E) (position : P) (event : E) :
    s.liveStep (.event position event) =
      { s with
        window := (s.window.record s.io position event).1
        io := (s.window.record s.io position event).2.1.deliver position event
          (s.window.record s.io position event).2.2 } := rfl

theorem liveStep_retract (s : Pipeline σ ρ P E) (position : P) :
    s.liveStep (.retract position : Indexed P E) =
      { s with
        window := (s.window.retract s.io position).1
        io := (s.window.retract s.io position).2 } := rfl

end Pipeline

/-- Each event is persisted while flowing downstream: backfill first, then live.  The result is the
state of the pipeline after both streams, with every effect on the way. -/
def persistAndEmit (backfill : List (P × E)) (live : List (Indexed P E)) (store : σ) (record : ρ)
    (depth : Nat) (finalCut : Option Nat) (seed : Option P) : Pipeline σ ρ P E :=
  live.foldl Pipeline.liveStep
    (backfill.foldl (Pipeline.backfillStep finalCut)
      (Pipeline.start store record depth finalCut seed)).settle

end ArtemisLight
