import ArtemisLight.Persistence.Writer.Equiv.Block
import ArtemisLight.Persistence.Writer.Groups

/-!
## The block writer keeps the groups

Over a stream in the order of its sort keys, with a store that does not fail, the block writer has
written the closed groups and buffers the last one.
-/

namespace ArtemisLight

variable {σ ρ P E : Type}

/-- Record a sequence of events.  The last component is the verdicts, in order. -/
def recordAll {W : Type} (record : W → Io σ ρ P E → P → E → W × Io σ ρ P E × Bool) (w : W)
    (io : Io σ ρ P E) : List (P × E) → W × Io σ ρ P E × List Bool
  | [] => (w, io, [])
  | x :: xs =>
    let (w, io, delivered) := record w io x.1 x.2
    let (w, io, verdicts) := recordAll record w io xs
    (w, io, delivered :: verdicts)

theorem recordAll_cons {W : Type} (record : W → Io σ ρ P E → P → E → W × Io σ ρ P E × Bool) (w : W)
    (io : Io σ ρ P E) (x : P × E) (xs : List (P × E)) :
    recordAll record w io (x :: xs)
      = ((recordAll record (record w io x.1 x.2).1 (record w io x.1 x.2).2.1 xs).1,
        (recordAll record (record w io x.1 x.2).1 (record w io x.1 x.2).2.1 xs).2.1,
        (record w io x.1 x.2).2.2 ::
          (recordAll record (record w io x.1 x.2).1 (record w io x.1 x.2).2.1 xs).2.2) := rfl

variable [Position P]

namespace BlockWriter

/-- A healthy writer that has written the closed groups and buffers the last one. -/
structure Holds (seed : Option P) (g : Groups P) (w : BlockWriter P) (effects : List (Effect P E)) :
    Prop where
  healthy : w.core.healthy = true
  schema : w.current.isSome → w.core.schema.isSome
  current : w.current = g.last.map Prod.fst
  buffer : w.buffer = g.last.elim [] Prod.snd
  watermark : w.watermark = Groups.watermark seed g.closed
  written : writes effects = g.closed

variable {seed : Option P} {g : Groups P} {w : BlockWriter P} {io : Io σ ρ P E}

theorem Holds.new (seed : Option P) :
    Holds (E := E) seed Groups.empty (BlockWriter.new seed) [] where
  healthy := rfl
  schema h := nomatch h
  current := rfl
  buffer := rfl
  watermark := rfl
  written := rfl

theorem Holds.covered_eq {effects : List (Effect P E)} (h : Holds seed g w effects) (position : P) :
    w.covered position = g.covered seed position := by
  unfold covered Groups.covered
  rw [h.watermark, h.current, Option.any_map]

variable [Store σ P] [RecordOps ρ E] {W : σ → Prop} {position : P} {event : E}

theorem Holds.record_dropped (h : Holds seed g w io.effects) (event : E)
    (hd : g.Drops seed position) :
    w.record io position event = (w, io, false) :=
  record_covered w io position event h.healthy hd.1 ((h.covered_eq position).trans hd.2)

/-- An event that is not dropped adds its row to the groups. -/
theorem Holds.record [LawfulPosition P] (hW : Reliable P W) (h : Holds seed g w io.effects)
    (hs : W io.store) {row : Row} {record : ρ}
    (he : RecordOps.encode io.record event = (.ok row, record)) (hd : ¬ g.Drops seed position)
    (hle : ∀ x ∈ g.last, Position.sortKey x.1 ≤ Position.sortKey position) :
    ∃ w' io', w.record io position event = (w', io', true) ∧ io'.record = record ∧ W io'.store ∧
      Holds seed (g.add position row) w' io'.effects := by
  have hunc : ¬ (Position.reobservation P = .dedupe ∧ w.covered position = true) := by
    rw [h.covered_eq]
    exact hd
  have hrec := record_uncovered w io position event hunc
  generalize w.record io position event = r at hrec ⊢
  -- the open group is the last of the groups
  have hcurrent : ∀ cur, w.current = some cur → ∃ rows, g.last = some (cur, rows) := by
    intro cur hc
    obtain ⟨⟨cur', rows⟩, hlast, rfl⟩ := Option.map_eq_some_iff.mp (h.current.symm.trans hc)
    exact ⟨rows, hlast⟩
  cases hrec with
  | unhealthy hh => exact nomatch hh.symm.trans h.healthy
  | encode hh e record' he' => exact nomatch (Prod.mk.inj (he.symm.trans he')).1
  | unordered hh row' schema record' he' cur hc hlt =>
    obtain ⟨rows, hlast⟩ := hcurrent cur hc
    have hkey : Position.sortKey cur ≤ Position.sortKey position := hle _ hlast
    omega
  | write hh row' schema record' he' cur hc hlt e store hw =>
    obtain ⟨s', hok, -⟩ := hW io.store hs schema cur w.buffer
    exact nomatch (Prod.mk.inj (hok.symm.trans hw)).1
  | «extends» hh row' schema record' he' hc =>
    obtain ⟨hrow, rfl⟩ := Prod.mk.inj (he.symm.trans he')
    obtain rfl := Except.ok.inj hrow
    refine ⟨_, _, rfl, rfl, hs, ?_⟩
    rcases hlast : g.last with _ | ⟨cur, rows⟩
    · have hcur : w.current = none := by rw [h.current, hlast]; rfl
      have hbuffer : w.buffer = [] := by rw [h.buffer, hlast]; rfl
      unfold Groups.add
      rw [hlast]
      refine ⟨h.healthy, fun _ => rfl, ?_, ?_, h.watermark, ?_⟩
      · show some (Position.advance w.current position) = some position
        rw [hcur, LawfulPosition.advance_none]
      · show w.buffer ++ [row] = [row]
        rw [hbuffer, List.nil_append]
      · rw [Io.emit_effects, writes_append, h.written]
        exact List.append_nil _
    · have hcur : w.current = some cur := by rw [h.current, hlast]; rfl
      have hbuffer : w.buffer = rows := by rw [h.buffer, hlast]; rfl
      have hnlt : ¬ Position.sortKey cur < Position.sortKey position := by
        rw [hc cur hcur]
        exact Nat.lt_irrefl _
      unfold Groups.add
      rw [hlast]
      simp only [if_neg hnlt]
      refine ⟨h.healthy, fun _ => rfl, ?_, ?_, h.watermark, ?_⟩
      · show some (Position.advance w.current position) = _
        rw [hcur]
        rfl
      · show w.buffer ++ [row] = rows ++ [row]
        rw [hbuffer]
      · rw [Io.emit_effects, writes_append, h.written]
        exact List.append_nil _
  | advances hh row' schema record' he' cur hc hlt store hw =>
    obtain ⟨hrow, rfl⟩ := Prod.mk.inj (he.symm.trans he')
    obtain rfl := Except.ok.inj hrow
    obtain ⟨s', hok, hs'⟩ := hW io.store hs schema cur w.buffer
    obtain rfl := (Prod.mk.inj (hok.symm.trans hw)).2
    obtain ⟨rows, hlast⟩ := hcurrent cur hc
    have hbuffer : w.buffer = rows := by rw [h.buffer, hlast]; rfl
    refine ⟨_, _, rfl, rfl, hs', ?_⟩
    unfold Groups.add
    rw [hlast]
    simp only [if_pos hlt]
    refine ⟨h.healthy, fun _ => rfl, ?_, rfl, ?_, ?_⟩
    · show some (Position.advance none position) = some position
      rw [LawfulPosition.advance_none]
    · show some (Position.advance w.watermark cur) = _
      rw [Groups.watermark_append, ← h.watermark]
      rfl
    · rw [writes_append, h.written, hbuffer]
      rfl

omit [RecordOps ρ E] in
/-- The end of the range writes the last group as well. -/
theorem Holds.finish (hW : Reliable P W) (h : Holds seed g w io.effects) (hs : W io.store) :
    writes (w.finish io).2.effects = g.all ∧ (w.finish io).1.core.healthy = true := by
  have hfin := finish_finished w io h.schema
  generalize w.finish io = r at hfin ⊢
  cases hfin with
  | unhealthy hh => exact absurd (hh.symm.trans h.healthy) (by simp)
  | empty hh hc =>
    have hlast : g.last = none := Option.map_eq_none_iff.mp (h.current.symm.trans hc)
    refine ⟨?_, h.healthy⟩
    rw [h.written, Groups.all, hlast]
    exact (List.append_nil _).symm
  | write hh cur hc schema hsch e store hw =>
    obtain ⟨s', hok, -⟩ := hW io.store hs schema cur w.buffer
    exact absurd ((Prod.mk.inj (hok.symm.trans hw)).1) (by simp)
  | wrote hh cur hc schema hsch store hw =>
    obtain ⟨⟨cur', rows⟩, hlast, rfl⟩ := Option.map_eq_some_iff.mp (h.current.symm.trans hc)
    have hbuffer : w.buffer = rows := by rw [h.buffer, hlast]; rfl
    refine ⟨?_, h.healthy⟩
    rw [Io.emit_effects, writes_append, h.written, Groups.all, hlast, hbuffer]
    rfl

end BlockWriter

end ArtemisLight
