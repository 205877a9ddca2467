import ArtemisLight.Persistence.Persisted
import ArtemisLight.Persistence.Writer.Equiv.Block
import ArtemisLight.Persistence.Writer.Equiv.Window

/-!
## The order of the writes

Whatever the positions are, and however their source treats re-observations: a subscription writes
its groups in the order of their sort keys, none below the seed.  The settled writer goes up to the
final cut, the window starts from there, and neither buffers a group below what has been written.
-/

namespace ArtemisLight

variable {σ ρ P E : Type} [Position P]

/-- The sort key that a watermark has reached. -/
def level (watermark : Option P) : Nat := watermark.elim 0 Position.sortKey

theorem level_advance [LawfulPosition P] (watermark : Option P) (position : P) :
    level (some (Position.advance watermark position))
      = max (level watermark) (Position.sortKey position) := by
  cases watermark with
  | none =>
    rw [LawfulPosition.advance_none]
    exact (Nat.zero_max _).symm
  | some w => exact LawfulPosition.sortKey_advance w position

/-- Groups in the order of their sort keys, all of them between `lo` and `hi`. -/
structure Rising (lo hi : Nat) (groups : List (P × List Row)) : Prop where
  le : lo ≤ hi
  sorted : groups.Pairwise fun g g' => Position.sortKey g.1 ≤ Position.sortKey g'.1
  above : ∀ g ∈ groups, lo ≤ Position.sortKey g.1
  below : ∀ g ∈ groups, Position.sortKey g.1 ≤ hi

namespace Rising

variable {lo hi hi' : Nat} {groups : List (P × List Row)}

theorem nil (h : lo ≤ hi) : Rising lo hi ([] : List (P × List Row)) :=
  ⟨h, .nil, fun _ hg => absurd hg List.not_mem_nil, fun _ hg => absurd hg List.not_mem_nil⟩

theorem mono (h : Rising lo hi groups) (hle : hi ≤ hi') : Rising lo hi' groups :=
  ⟨Nat.le_trans h.le hle, h.sorted, h.above, fun g hg => Nat.le_trans (h.below g hg) hle⟩

/-- One more group, at or above all the others. -/
theorem concat (h : Rising lo hi groups) {position : P}
    (hle : hi ≤ Position.sortKey position) (rows : List Row) :
    Rising lo (Position.sortKey position) (groups ++ [(position, rows)]) where
  le := Nat.le_trans h.le hle
  sorted := by
    rw [List.pairwise_append]
    refine ⟨h.sorted, List.pairwise_singleton _ _, ?_⟩
    intro g hg g' hg'
    rw [List.mem_singleton.mp hg']
    exact Nat.le_trans (h.below g hg) hle
  above g hg := by
    rcases List.mem_append.mp hg with hg | hg
    · exact h.above g hg
    · rw [List.mem_singleton.mp hg]
      exact Nat.le_trans h.le hle
  below g hg := by
    rcases List.mem_append.mp hg with hg | hg
    · exact Nat.le_trans (h.below g hg) hle
    · rw [List.mem_singleton.mp hg]

end Rising

variable [Store σ P]

/-! ### The settled writer -/

namespace BlockWriter

/-- A settled writer has written in order up to its watermark, and while it is healthy its open
group is at or above that. -/
structure Rises (seed : Option P) (hi : Nat) (w : BlockWriter P) (effects : List (Effect P E)) :
    Prop where
  written : Rising (level seed) (level w.watermark) (writes effects)
  le_hi : level w.watermark ≤ hi
  fresh : w.core.healthy = true → w.current = none → level w.watermark = level seed
  current : w.core.healthy = true → ∀ cur ∈ w.current,
    level w.watermark ≤ Position.sortKey cur ∧ Position.sortKey cur ≤ hi
  schema : w.current.isSome → w.core.schema.isSome

variable {seed : Option P} {hi : Nat} {w : BlockWriter P}

omit [Store σ P] in
theorem Rises.new {seed : Option P} (hle : level seed ≤ hi) :
    Rises (E := E) seed hi (BlockWriter.new seed) [] where
  written := .nil (Nat.le_refl _)
  le_hi := hle
  fresh _ _ := rfl
  current _ _ hcur := absurd hcur (by simp [BlockWriter.new])
  schema h := absurd h (by simp [BlockWriter.new])

/-- Effects that write nothing change nothing. -/
theorem Rises.congr {effects effects' : List (Effect P E)} (h : Rises seed hi w effects)
    (heffects : writes effects' = writes effects) :
    Rises seed hi w effects' :=
  { h with written := by rw [heffects]; exact h.written }

variable {io : Io σ ρ P E} [LawfulPosition P]

/-- What recording an event of the settled range does to the order of the writes. -/
theorem Recorded.rises [RecordOps ρ E] {position : P} {event : E}
    {r : BlockWriter P × Io σ ρ P E × Bool} (hr : Recorded w io position event r)
    (h : Rises seed hi w io.effects) (hlo : level seed ≤ Position.sortKey position)
    (hhi : Position.sortKey position ≤ hi) : Rises seed hi r.1 r.2.1.effects := by
  cases hr with
  | unhealthy hh => exact h
  | encode hh e record he =>
    exact { h.congr (by simp [writes, Effect.wrote?]) with
      fresh := fun hh' => absurd hh' (by simp [halted])
      current := fun hh' => absurd hh' (by simp [halted]) }
  | unordered hh row schema record he cur hc hlt =>
    exact { h.congr (by simp [writes, Effect.wrote?]) with
      fresh := fun hh' => absurd hh' (by simp [halted])
      current := fun hh' => absurd hh' (by simp [halted])
      schema := fun _ => rfl }
  | «extends» hh row schema record he hc =>
    have hle : level w.watermark ≤ Position.sortKey position := by
      rcases hcur : w.current with _ | cur
      · rw [h.fresh hh hcur]
        exact hlo
      · rw [← hc cur hcur]
        exact (h.current hh cur hcur).1
    have hkey : Position.sortKey (Position.advance w.current position)
      = Position.sortKey position := by
      rcases hcur : w.current with _ | cur
      · rw [LawfulPosition.advance_none]
      · rw [LawfulPosition.sortKey_advance, hc cur hcur, Nat.max_self]
    exact { h.congr (by simp [writes, Effect.wrote?]) with
      fresh := fun _ hnone => absurd hnone (by simp [pushed])
      current := by
        intro _ cur' hcur'
        obtain rfl : Position.advance w.current position = cur' := Option.some.inj hcur'
        rw [hkey]
        exact ⟨hle, hhi⟩
      schema := fun _ => rfl }
  | write hh row schema record he cur hc hlt e store hw =>
    exact { h.congr (by simp [writes, Effect.wrote?]) with
      fresh := fun hh' => absurd hh' (by simp [halted])
      current := fun hh' => absurd hh' (by simp [halted])
      schema := fun _ => rfl }
  | advances hh row schema record he cur hc hlt store hw =>
    obtain ⟨hge, hle⟩ := h.current hh cur hc
    -- the mark rises to the group that is closed
    have hlevel : level (some (Position.advance w.watermark cur)) = Position.sortKey cur := by
      rw [level_advance, Nat.max_eq_right hge]
    have hwrites : writes (io.effects ++ [.wrote w.core.writer cur w.buffer,
        .accepted .settled position event row]) = writes io.effects ++ [(cur, w.buffer)] := by
      simp [writes, Effect.wrote?]
    refine ⟨?_, ?_, fun _ (hnone : some _ = none) => (by simp at hnone), ?_, fun _ => rfl⟩
    · show Rising _ (level (some (Position.advance w.watermark cur))) (writes _)
      rw [hlevel, hwrites]
      exact h.written.concat hge _
    · show level (some (Position.advance w.watermark cur)) ≤ hi
      rw [hlevel]
      exact hle
    · intro _ cur' hcur'
      obtain rfl : Position.advance none position = cur' := Option.some.inj hcur'
      rw [LawfulPosition.advance_none]
      show level (some (Position.advance w.watermark cur)) ≤ _ ∧ _
      rw [hlevel]
      exact ⟨Nat.le_of_lt hlt, hhi⟩

theorem Rises.record [RecordOps ρ E] (h : Rises seed hi w io.effects) {position : P} (event : E)
    (hlo : level seed ≤ Position.sortKey position) (hhi : Position.sortKey position ≤ hi) :
    Rises seed hi (w.record io position event).1 (w.record io position event).2.1.effects := by
  by_cases hcov : Position.reobservation P = .dedupe ∧ w.covered position = true
  · cases hh : w.core.healthy with
    | false =>
      have hrec : w.record io position event = (w, io, true) := by
        unfold BlockWriter.record
        rw [if_pos (by rw [hh]; rfl)]
      rw [hrec]
      exact h
    | true =>
      rw [record_covered w io position event hh hcov.1 hcov.2]
      exact h
  · exact (record_uncovered w io position event hcov).rises h hlo hhi

/-- At the end of the range, the settled writer has written in order up to its watermark. -/
theorem Rises.finish (h : Rises seed hi w io.effects) :
    Rising (level seed) (level (w.finish io).1.watermark) (writes (w.finish io).2.effects) ∧
      level (w.finish io).1.watermark ≤ hi := by
  have hfin := w.finish_finished io h.schema
  generalize w.finish io = r at hfin
  cases hfin with
  | unhealthy hh => exact ⟨h.written, h.le_hi⟩
  | empty hh hc => exact ⟨h.written, h.le_hi⟩
  | write hh cur hc schema hs e store hw =>
    refine ⟨?_, h.le_hi⟩
    show Rising _ _ (writes (io.effects ++ [_]))
    rw [writes_append]
    exact (List.append_nil (writes io.effects)).symm ▸ h.written
  | wrote hh cur hc schema hs store hw =>
    obtain ⟨hge, hle⟩ := h.current hh cur hc
    have hlevel : level (some (Position.advance w.watermark cur)) = Position.sortKey cur := by
      rw [level_advance, Nat.max_eq_right hge]
    show Rising _ (level (some (Position.advance w.watermark cur))) (writes (io.effects ++ [_])) ∧
      level (some (Position.advance w.watermark cur)) ≤ hi
    rw [hlevel, writes_append]
    exact ⟨h.written.concat hge _, hle⟩

end BlockWriter

/-! ### The window during the backfill -/

namespace ConfirmationWindow

/-- A window that has buffered a part of the backfill tail: groups above the final cut, none of
which is mature. -/
structure Seeded (windowSeed : Option P) (cut : Option Nat) (depth hi : Nat)
    (w : ConfirmationWindow P) : Prop where
  watermark : w.watermark = windowSeed
  flushed : w.flushed = windowSeed.map Position.sortKey
  depth_eq : w.depth = depth
  head : ∀ h ∈ w.head, h ≤ hi
  pending : ∀ (k : Nat) p, w.pending[k]? = some p → (∀ c ∈ cut, c < k) ∧ level windowSeed ≤ k ∧
    k ≤ hi ∧ Position.sortKey p.position = k

/-- Above the final cut nothing is mature while the head is at or below the tip. -/
def Unripe (cut : Option Nat) (depth hi : Nat) : Prop :=
  ∀ k ≤ hi, (∀ c ∈ cut, c < k) → hi < saturatingAdd u64Max k depth

variable {windowSeed seed : Option P} {cut : Option Nat} {depth hi : Nat} {w : ConfirmationWindow P}
  {io : Io σ ρ P E}

omit [Store σ P] in
theorem Seeded.new (windowSeed : Option P) (cut : Option Nat) (depth hi : Nat) :
    Seeded windowSeed cut depth hi (ConfirmationWindow.new depth windowSeed) where
  watermark := rfl
  flushed := rfl
  depth_eq := rfl
  head _ hh := absurd hh (by simp [ConfirmationWindow.new])
  pending _ _ hp := absurd hp (by simp [ConfirmationWindow.new])

/-- Nothing is flushed. -/
theorem Seeded.flushMatured (h : Seeded windowSeed cut depth hi w) (hunripe : Unripe cut depth hi) :
    w.flushMatured io = (w, io) := by
  unfold ConfirmationWindow.flushMatured
  rcases hhead : w.head with _ | head
  · rfl
  · have hnone : w.matured head = [] := by
      rw [List.eq_nil_iff_forall_not_mem]
      intro k hk
      obtain ⟨⟨p, hp⟩, hripe⟩ := mem_matured.mp hk
      obtain ⟨hcut, -, hle, -⟩ := h.pending k p hp
      have hlt := hunripe k hle hcut
      have := h.head head hhead
      rw [h.depth_eq] at hripe
      omega
    show w.flushLoop io (w.matured head) = (w, io)
    rw [hnone]
    rfl

/-- A window that has halted buffers nothing. -/
theorem Seeded.dropped (h : Seeded windowSeed cut depth hi w) (core : GapFreeWriter) :
    Seeded windowSeed cut depth hi { w with core, pending := ∅ } where
  watermark := h.watermark
  flushed := h.flushed
  depth_eq := h.depth_eq
  head := h.head
  pending _ _ hp := absurd hp (by simp)

/-- One more event of the backfill tail is buffered or dropped, and nothing is written. -/
theorem Seeded.recordSeeded [LawfulPosition P] [RecordOps ρ E]
    (h : Seeded windowSeed cut depth hi w) (io : Io σ ρ P E) (hunripe : Unripe cut depth hi)
    {position : P}
    (event : E) (hcut : ∀ c ∈ cut, c < Position.sortKey position)
    (hlo : level windowSeed ≤ Position.sortKey position) (hhi : Position.sortKey position ≤ hi) :
    Seeded windowSeed cut depth hi (w.recordSeeded io position event).1 ∧
      writes (w.recordSeeded io position event).2.1.effects = writes io.effects := by
  unfold ConfirmationWindow.recordSeeded
  split
  · exact ⟨h, rfl⟩
  split
  · exact ⟨h, rfl⟩
  dsimp only
  generalize (if Position.reobservation P = .halt then
    w.head.filter fun h => decide (Position.sortKey position < h) else none) = stale
  rcases stale with _ | head
  · rcases w.core.encode_cases io event with ⟨row, schema, record, -, henc⟩ | ⟨e, record, -, henc⟩
    · rw [henc]
      have hstep : Seeded windowSeed cut depth hi
          (({ w with core := { w.core with schema := some schema } } :
            ConfirmationWindow P).acceptSeeded { io with record } position event row).1 := by
        refine ⟨h.watermark, h.flushed, h.depth_eq, ?_, ?_⟩
        · intro head hhead
          obtain rfl := Option.some.inj hhead
          rcases hw : w.head with _ | head
          · exact hhi
          · exact Nat.max_le.mpr ⟨h.head head hw, hhi⟩
        · intro k p hp
          rw [acceptSeeded_getElem?] at hp
          split at hp
          · subst k
            obtain rfl := Option.some.inj hp
            refine ⟨hcut, hlo, hhi, ?_⟩
            unfold seededGroup
            split
            · rfl
            · rename_i q hq
              show Position.sortKey (Position.advance (some q.position) position) = _
              rw [LawfulPosition.sortKey_advance, (h.pending _ q hq).2.2.2, Nat.max_self]
          · exact h.pending k p hp
      simp only
      rw [hstep.flushMatured hunripe]
      exact ⟨hstep, by simp [writes, Effect.wrote?]⟩
    · rw [henc]
      exact ⟨h.dropped _, by simp [writes, Effect.wrote?]⟩
  · exact ⟨h.dropped _, by simp [failWith, GapFreeWriter.fail, writes, Effect.wrote?]⟩

/-! ### The window during the live stream -/

/-- The subscription has written in order up to the window's watermark, and the window buffers
nothing below that. -/
structure Rises (seed : Option P) (w : ConfirmationWindow P) (effects : List (Effect P E)) :
    Prop where
  written : Rising (level seed) (level w.watermark) (writes effects)
  flushed : w.flushed = w.watermark.map Position.sortKey
  pending : ∀ (k : Nat) p, w.pending[k]? = some p →
    level w.watermark ≤ k ∧ Position.sortKey p.position = k

omit [Store σ P] in
/-- Effects that write nothing change nothing. -/
theorem Rises.congr {effects effects' : List (Effect P E)} (h : Rises seed w effects)
    (heffects : writes effects' = writes effects) : Rises seed w effects' :=
  { h with written := by rw [heffects]; exact h.written }

omit [Store σ P] in
/-- A window that has halted buffers nothing. -/
theorem Rises.dropped {effects : List (Effect P E)} (h : Rises seed w effects)
    (core : GapFreeWriter) : Rises seed { w with core, pending := ∅ } effects where
  written := h.written
  flushed := h.flushed
  pending _ _ hp := absurd hp (by simp)

section Lawful

variable [LawfulPosition P]

omit [Store σ P] in
/-- The lowest group is done with once its key has been written, or is past. -/
theorem Rises.finalize {effects effects' : List (Effect P E)} (h : Rises seed w effects)
    (core : GapFreeWriter) {b : Nat} {p : Pending P} (hp : w.pending[b]? = some p)
    (hlowest : ∀ (k : Nat) q, w.pending[k]? = some q → b ≤ k)
    (heffects : Rising (level seed) b (writes effects')) :
    Rises seed (({ w with core } : ConfirmationWindow P).finalize b p) effects' := by
  obtain ⟨hle, hkey⟩ := h.pending b p hp
  have hlevel : level (some (Position.advance w.watermark p.position)) = b := by
    rw [level_advance, hkey, Nat.max_eq_right hle]
  refine ⟨?_, ?_, ?_⟩
  · show Rising _ (level (some (Position.advance w.watermark p.position))) _
    rw [hlevel]
    exact heffects
  · show some (w.flushed.elim b (max · b))
        = some (Position.sortKey (Position.advance w.watermark p.position))
    rw [h.flushed]
    congr 1
    rcases hwm : w.watermark with _ | wm
    · rw [LawfulPosition.advance_none]
      exact hkey.symm
    · rw [LawfulPosition.sortKey_advance, hkey]
      rfl
  · intro k q hq
    have hq' := ConfirmationWindow.finalize_getElem? k hq
    refine ⟨?_, (h.pending k q hq').2⟩
    show level (some (Position.advance w.watermark p.position)) ≤ k
    rw [hlevel]
    exact hlowest k q hq'

/-- A flush in the order of the sort keys, after which nothing below them is left. -/
theorem Rises.flushLoop : ∀ (bs : List Nat) (w : ConfirmationWindow P) (io : Io σ ρ P E),
    Rises seed w io.effects → bs.Pairwise (· < ·) →
      (∀ (k : Nat) p, w.pending[k]? = some p → k ∈ bs ∨ ∀ b ∈ bs, b ≤ k) →
      Rises seed (w.flushLoop io bs).1 (w.flushLoop io bs).2.effects := by
  intro bs
  induction bs with
  | nil => exact fun w io h _ _ => h
  | cons b bs ih =>
    intro w io h hbs hlow
    obtain ⟨hb, hbs⟩ := List.pairwise_cons.mp hbs
    unfold ConfirmationWindow.flushLoop
    rcases hp : w.pending[b]? with _ | p
    · refine ih w io h hbs fun k q hq => ?_
      rcases hlow k q hq with hk | hk
      · rcases List.mem_cons.mp hk with rfl | hk
        · rw [hp] at hq
          exact absurd hq (by simp)
        · exact Or.inl hk
      · exact Or.inr fun b' hb' => hk b' (List.mem_cons_of_mem _ hb')
    · obtain ⟨hle, hkey⟩ := h.pending b p hp
      have hlowest : ∀ (k : Nat) q, w.pending[k]? = some q → b ≤ k := by
        intro k q hq
        rcases hlow k q hq with hk | hk
        · rcases List.mem_cons.mp hk with rfl | hk
          · exact Nat.le_refl _
          · exact Nat.le_of_lt (hb k hk)
        · exact hk b List.mem_cons_self
      -- the lowest group is written, or it counts as written if no schema was ever captured
      have hfinal : ∀ (core : GapFreeWriter) (io' : Io σ ρ P E),
          Rising (level seed) b (writes io'.effects) →
          Rises seed ((({ w with core } : ConfirmationWindow P).finalize b p).flushLoop io' bs).1
            ((({ w with core } : ConfirmationWindow P).finalize b p).flushLoop io'
              bs).2.effects := by
        intro core io' hio
        apply ih _ io' (h.finalize core hp hlowest hio) hbs
        intro k q hq
        have hq' : (w.pending.erase b)[k]? = some q := hq
        rw [getElem?_erase] at hq'
        split at hq'
        · exact absurd hq' (by simp)
        · rename_i hne
          rcases hlow k q hq' with hk | hk
          · exact Or.inl ((List.mem_cons.mp hk).resolve_left hne)
          · exact Or.inr fun b' hb' => hk b' (List.mem_cons_of_mem _ hb')
      dsimp only
      rcases hs : w.core.schema with _ | schema
      · have hflush : w.core.flush io p.position p.rows = (true, w.core, io) := by
          unfold GapFreeWriter.flush
          rw [hs]
        rw [hflush]
        exact hfinal w.core io (h.written.mono hle)
      · rcases GapFreeWriter.flush_cases hs io p.position p.rows with
          ⟨store, -, hflush⟩ | ⟨e, store, -, hflush⟩
        · rw [hflush]
          apply hfinal
          show Rising _ _ (writes (io.effects ++ [_]))
          rw [writes_append]
          have hrising := h.written.concat (Nat.le_trans hle (Nat.le_of_eq hkey.symm)) p.rows
          rw [hkey] at hrising
          exact hrising
        · rw [hflush]
          exact (h.congr (by simp [writes, Effect.wrote?])).dropped _

/-- Flushing the matured groups. -/
theorem Rises.flushMatured (h : Rises seed w io.effects) :
    Rises seed (w.flushMatured io).1 (w.flushMatured io).2.effects := by
  unfold ConfirmationWindow.flushMatured
  rcases w.head with _ | head
  · exact h
  · refine Rises.flushLoop _ w io h (w.matured_pairwise head) fun k p hp => ?_
    by_cases hk : k ∈ w.matured head
    · exact Or.inl hk
    · -- what is not mature lies above what is
      refine Or.inr fun b hb => Nat.le_of_not_lt fun hlt => hk ?_
      obtain ⟨-, hripe⟩ := mem_matured.mp hb
      refine mem_matured.mpr ⟨⟨p, hp⟩, Nat.le_trans ?_ hripe⟩
      unfold saturatingAdd
      omega

omit [Store σ P] [LawfulPosition P] in
/-- A rewind drops groups or empties them. -/
theorem Rises.rewind {effects : List (Effect P E)} (h : Rises seed w effects) (key : Nat)
    (head : Option Nat) : Rises seed { w.rewind key with head } effects where
  written := h.written
  flushed := h.flushed
  pending k p hp := by
    have hp' : (w.rewind key).pending[k]? = some p := hp
    rw [getElem?_rewind, Option.bind_eq_some_iff] at hp'
    obtain ⟨q, hq, hp'⟩ := hp'
    obtain ⟨hle, hkey⟩ := h.pending k q hq
    split at hp'
    · split at hp'
      · obtain rfl := Option.some.inj hp'
        exact ⟨hle, hkey⟩
      · exact nomatch hp'
    · obtain rfl := Option.some.inj hp'
      exact ⟨hle, hkey⟩

omit [Store σ P] [LawfulPosition P] in
/-- A group that replaces the one at its key, or is new. -/
theorem Rises.insert {effects : List (Effect P E)} (h : Rises seed w effects) {key : Nat}
    {group : Pending P} (hle : level w.watermark ≤ key)
    (hkey : Position.sortKey group.position = key) :
    Rises seed { w with pending := w.pending.insert key group } effects where
  written := h.written
  flushed := h.flushed
  pending k p hp := by
    have hp' : (w.pending.insert key group)[k]? = some p := hp
    rw [getElem?_insert] at hp'
    split at hp'
    · subst k
      obtain rfl := Option.some.inj hp'
      exact ⟨hle, hkey⟩
    · exact h.pending k p hp'

omit [Store σ P] in
/-- Folding a row in at or above the watermark. -/
theorem Rises.fold (h : Rises seed w io.effects) {position : P} (event : E) (row : Row)
    (hle : level w.watermark ≤ Position.sortKey position) :
    Rises seed (w.fold io position event row).1 (w.fold io position event row).2.1.effects := by
  unfold ConfirmationWindow.fold
  dsimp only
  rcases hp : w.pending[Position.sortKey position]? with _ | p
  · have hkey : Position.sortKey (⟨position, [row], [], false⟩ : Pending P).position
        = Position.sortKey position := rfl
    exact (h.insert hle hkey).congr (by simp [writes, Effect.wrote?])
  · have hkey := (h.pending _ p hp).2
    have hadvance : Position.sortKey (Position.advance (some p.position) position)
        = Position.sortKey position := by
      rw [LawfulPosition.sortKey_advance, hkey, Nat.max_self]
    dsimp only
    generalize decide (Position.reobservation P = .halt ∧ p.seeded = true) = rebuild
    cases rebuild
    · exact (h.insert hle hadvance).congr (by simp [writes, Effect.wrote?])
    · exact (h.insert hle hadvance).congr (by simp [writes, Effect.wrote?])

omit [Store σ P] in
/-- Accepting a live event at or above the watermark. -/
theorem Rises.accept (h : Rises seed w io.effects) {position : P} (event : E) (row : Row)
    (hle : level w.watermark ≤ Position.sortKey position) :
    Rises seed (w.accept io position event row).1 (w.accept io position event row).2.1.effects := by
  unfold ConfirmationWindow.accept
  dsimp only
  split
  · have hrewound : Rises seed
        ({ w.rewind (Position.sortKey position) with head := some (Position.sortKey position) } :
          ConfirmationWindow P) (io.emit (.rewound (Position.sortKey position))).effects :=
      (h.rewind _ _).congr (by simp [writes, Effect.wrote?])
    have hfold := hrewound.fold event row (hle : level w.watermark ≤ Position.sortKey position)
    exact ⟨hfold.written, hfold.flushed, hfold.pending⟩
  · have hfold := h.fold event row hle
    exact ⟨hfold.written, hfold.flushed, hfold.pending⟩

/-- Recording a live event keeps the order: what is below the watermark is dropped, or halts the
window. -/
theorem Rises.record [RecordOps ρ E] (h : Rises seed w io.effects) (position : P) (event : E) :
    Rises seed (w.record io position event).1 (w.record io position event).2.1.effects := by
  unfold ConfirmationWindow.record
  dsimp only
  split
  · exact h
  split
  · exact h
  rename_i hdedupe
  split
  · exact (h.congr (by simp [failWith, GapFreeWriter.fail, writes, Effect.wrote?])).dropped _
  rename_i hhalt
  have hle : level w.watermark ≤ Position.sortKey position := by
    rcases hwm : w.watermark with _ | wm
    · exact Nat.zero_le _
    · show Position.sortKey wm ≤ _
      by_contra hlt
      rw [Nat.not_le] at hlt
      cases hP : Position.reobservation P with
      | halt =>
        refine hhalt ⟨hP, ?_⟩
        rw [h.flushed, hwm]
        exact decide_eq_true (Nat.le_of_lt hlt)
      | dedupe =>
        refine hdedupe ⟨hP, ?_⟩
        unfold covered
        rw [hwm, Option.any_some, LawfulPosition.contains_of_lt wm position hlt, Bool.true_or]
  rcases w.core.encode_cases io event with ⟨row, schema, record, -, henc⟩ | ⟨e, record, -, henc⟩
  · rw [henc]
    have hcore : Rises seed { w with core := { w.core with schema := some schema } }
        ({ io with record } : Io σ ρ P E).effects := ⟨h.written, h.flushed, h.pending⟩
    exact (hcore.accept event row hle).flushMatured
  · rw [henc]
    exact (h.congr (by simp [writes, Effect.wrote?])).dropped _

omit [Store σ P] [LawfulPosition P] in
theorem Rises.retract (h : Rises seed w io.effects) (position : P) :
    Rises seed (w.retract io position).1 (w.retract io position).2.effects := by
  unfold ConfirmationWindow.retract
  dsimp only
  split
  · exact h
  split
  · exact h
  split
  · exact (h.congr (by simp [failWith, GapFreeWriter.fail, writes, Effect.wrote?])).dropped _
  · exact (h.rewind _ _).congr (by simp [writes, Effect.wrote?])

end Lawful

end ConfirmationWindow

/-! ### The pipeline -/

omit [Store σ P] in
/-- The watermark that the window starts from. -/
def startWatermark (finalCut : Option Nat) (seed : Option P) : Option P :=
  match finalCut with
  | some cut => some (Position.advance seed (Position.fromSortKey cut))
  | none => seed

omit [Store σ P] in
theorem level_startWatermark [ResumablePosition P] (finalCut : Option Nat) (seed : Option P) :
    level (startWatermark finalCut seed) = max (level seed) (finalCut.getD 0) := by
  cases finalCut with
  | none => exact (Nat.max_zero _).symm
  | some cut =>
    show level (some (Position.advance seed (Position.fromSortKey cut))) = _
    rw [level_advance, ResumablePosition.sortKey_fromSortKey]
    rfl

namespace Pipeline

variable [ResumablePosition P] [RecordOps ρ E] {seed : Option P} {cut : Option Nat} {depth hi : Nat}
  {s : Pipeline σ ρ P E}

/-- A pipeline that has recorded a part of the backfill. -/
structure Backfilling (seed : Option P) (cut : Option Nat) (depth hi : Nat)
    (s : Pipeline σ ρ P E) : Prop where
  settled : s.settled.Rises seed (level (startWatermark cut seed)) s.io.effects
  window : s.window.Seeded (startWatermark cut seed) cut depth hi

omit [Store σ P] [RecordOps ρ E] in
theorem Backfilling.start (store : σ) (record : ρ) :
    Backfilling seed cut depth hi
      (Pipeline.start store record depth cut seed : Pipeline σ ρ P E) where
  settled := .new (by rw [level_startWatermark]; exact Nat.le_max_left _ _)
  window := .new _ _ _ _

theorem Backfilling.backfillStep (h : Backfilling seed cut depth hi s)
    (hunripe : ConfirmationWindow.Unripe cut depth hi) {item : P × E}
    (hlo : level seed ≤ Position.sortKey item.1) (hhi : Position.sortKey item.1 ≤ hi) :
    Backfilling seed cut depth hi (s.backfillStep cut item) := by
  obtain ⟨position, event⟩ := item
  by_cases hle : ∃ c ∈ cut, Position.sortKey position ≤ c
  · obtain ⟨c, hc, hle⟩ := hle
    rw [s.backfillStep_of_le event hc hle]
    have hhi' : Position.sortKey position ≤ level (startWatermark cut seed) := by
      rw [level_startWatermark, Option.mem_def.mp hc]
      exact Nat.le_trans hle (Nat.le_max_right _ _)
    refine ⟨(h.settled.record event hlo hhi').congr ?_, h.window⟩
    unfold Io.deliver
    split <;> simp [writes, Effect.wrote?]
  · have hlt : ∀ c ∈ cut, c < Position.sortKey position := fun c hc =>
      Nat.lt_of_not_le fun hle' => hle ⟨c, hc, hle'⟩
    rw [s.backfillStep_of_lt event hlt]
    have hseed : level (startWatermark cut seed) ≤ Position.sortKey position := by
      rw [level_startWatermark]
      refine Nat.max_le.mpr ⟨hlo, ?_⟩
      cases hcut : cut with
      | none => exact Nat.zero_le _
      | some c => exact Nat.le_of_lt (hlt c hcut)
    obtain ⟨hwindow, hwrites⟩ := h.window.recordSeeded s.io hunripe event hlt hseed hhi
    refine ⟨h.settled.congr ?_, hwindow⟩
    rw [← hwrites]
    unfold Io.deliver
    split <;> simp [writes, Effect.wrote?]

/-- A pipeline that follows the live stream. -/
def Following (seed : Option P) (s : Pipeline σ ρ P E) : Prop :=
  s.window.Rises seed s.io.effects

omit [RecordOps ρ E] in
/-- At the end of the backfill the window takes over where the settled writer has stopped. -/
theorem Backfilling.settle (h : Backfilling seed cut depth hi s) : Following seed s.settle := by
  obtain ⟨hwritten, hle⟩ := h.settled.finish
  have hlevel :
    level s.window.watermark = level (startWatermark cut seed) := by rw [h.window.watermark]
  have hpending : ∀ (k : Nat) p, s.window.pending[k]? = some p →
      level s.window.watermark ≤ k ∧ Position.sortKey p.position = k := by
    intro k p hp
    obtain ⟨-, hk, -, hkey⟩ := h.window.pending k p hp
    rw [hlevel]
    exact ⟨hk, hkey⟩
  have hflushed : s.window.flushed = s.window.watermark.map Position.sortKey := by
    rw [h.window.flushed, h.window.watermark]
  have hrises : s.window.Rises seed (s.settled.finish s.io).2.effects :=
    ⟨hwritten.mono (by rw [hlevel]; exact hle), hflushed, hpending⟩
  cases hh : (s.settled.finish s.io).1.core.healthy with
  | false =>
    rw [s.settle_of_unhealthy hh]
    exact (hrises.congr (by simp [ConfirmationWindow.halt, ConfirmationWindow.failWith,
      GapFreeWriter.fail, writes, Effect.wrote?])).dropped _
  | true =>
    rw [s.settle_of_healthy hh]
    show ((s.window.absorb (s.settled.finish s.io).1.watermark).Rises seed _)
    rcases hwm : (s.settled.finish s.io).1.watermark with _ | wm
    · exact hrises
    · -- absorbing raises no sort key: the settled writer stayed at or below the final cut
      rw [hwm] at hle
      have hsame : level (some (Position.advance s.window.watermark wm))
        = level s.window.watermark := by
        rw [level_advance, hlevel]
        exact Nat.max_eq_left hle
      refine ⟨?_, ?_, ?_⟩
      · show Rising _ (level (some (Position.advance s.window.watermark wm))) _
        rw [hsame]
        exact hrises.written
      · show some (s.window.flushed.elim (Position.sortKey wm) (max · (Position.sortKey wm)))
          = some (Position.sortKey (Position.advance s.window.watermark wm))
        rw [hflushed]
        congr 1
        rcases s.window.watermark with _ | w
        · rw [LawfulPosition.advance_none]
          rfl
        · rw [LawfulPosition.sortKey_advance]
          rfl
      · intro k p hp
        show level (some (Position.advance s.window.watermark wm)) ≤ k ∧ _
        rw [hsame]
        exact hpending k p hp

theorem Following.liveStep (h : Following seed s) (item : Indexed P E) :
    Following seed (s.liveStep item) := by
  cases item with
  | event position event =>
    rw [s.liveStep_event]
    refine (ConfirmationWindow.Rises.record h position event).congr ?_
    unfold Io.deliver
    split <;> simp [writes, Effect.wrote?]
  | retract position =>
    rw [s.liveStep_retract]
    exact ConfirmationWindow.Rises.retract h position

end Pipeline

/-- A subscription writes in the order of the sort keys, nothing below its seed, if the backfill
stays between the seed and a tip under which nothing above the final cut is mature. -/
theorem writes_rising [ResumablePosition P] [RecordOps ρ E] {cut : Option Nat} {depth hi : Nat}
    (hunripe : ConfirmationWindow.Unripe cut depth hi) {seed : Option P} {backfill : List (P × E)}
    (hback : ∀ x ∈ backfill, level seed ≤ Position.sortKey x.1 ∧ Position.sortKey x.1 ≤ hi)
    (live : List (Indexed P E)) (store : σ) (record : ρ) :
    ∃ hi', Rising (level seed) hi'
      (writes (persistAndEmit backfill live store record depth cut seed).io.effects) := by
  have hstart : Pipeline.Backfilling seed cut depth hi
      (backfill.foldl (Pipeline.backfillStep cut) (Pipeline.start store record depth cut seed)) :=
    foldl_preserves _ (.start store record) fun s x hx h =>
      h.backfillStep hunripe (hback x hx).1 (hback x hx).2
  have hlive : Pipeline.Following seed (persistAndEmit backfill live store record depth cut seed) :=
    foldl_preserves _ hstart.settle fun s item _ h => h.liveStep item
  exact ⟨_, hlive.written⟩

/-! ### The bounds of a subscribe -/

/-- Below the final cut of a subscribe nothing is mature, unless the sort keys saturate. -/
theorem Persisted.unripe (p : Persisted ρ) {tip hi : Nat} (hle : hi ≤ p.effectiveTip tip)
    (hmax : p.toBlock = none → hi < u64Max) :
    ConfirmationWindow.Unripe (p.finalCut tip) p.confirmationDepth hi := by
  intro k hk hcut
  unfold Persisted.finalCut at hcut
  cases hbound : p.toBlock with
  | some cap =>
    -- everything up to the bound settles
    rw [hbound] at hcut
    have := hcut (p.effectiveTip tip) rfl
    omega
  | none =>
    have hlt := hmax hbound
    rw [hbound, Option.isSome_none, if_neg (by decide)] at hcut
    have hdeep : p.effectiveTip tip < k + p.confirmationDepth := by
      rcases hsub : checkedSub (p.effectiveTip tip) p.confirmationDepth with _ | c
      · have := checkedSub_eq_none.mp hsub
        omega
      · have hc := hcut c hsub
        obtain ⟨hdepth, rfl⟩ := checkedSub_eq_some.mp hsub
        omega
    unfold saturatingAdd
    omega

/-- Whatever one subscribe backfills in the range it asks for, and whatever its live stream reports,
it writes in the order of the sort keys and nothing below the stored position.  At `u64::MAX` every
buffered group counts as mature, so a backfill that the live stream follows has to stay below
that. -/
theorem Persisted.writes_rising [ResumablePosition P] [RecordOps ρ E] (p : Persisted ρ)
    {seed : Option P} (hseed : level seed ≤ u64Max) {tip : Nat} {backfill : List (P × E)}
    (hback : ∀ x ∈ backfill, seed.elim 0 Position.resumeKey ≤ Position.sortKey x.1 ∧
      Position.sortKey x.1 ≤ p.effectiveTip tip)
    (hmax : p.toBlock = none → ∀ x ∈ backfill, Position.sortKey x.1 < u64Max)
    (live : List (Indexed P E)) (store : σ) (record : ρ) :
    ∃ hi, Rising (level seed) hi (writes (persistAndEmit backfill live store record
      p.confirmationDepth (p.finalCut tip) seed).io.effects) := by
  have hlo : level seed ≤ seed.elim 0 Position.resumeKey := by
    cases seed with
    | none => exact Nat.le_refl _
    | some s => exact ResumablePosition.le_resumeKey s hseed
  cases hbound : p.toBlock with
  | some cap =>
    apply ArtemisLight.writes_rising (p.unripe (Nat.le_refl _) (by simp [hbound]))
    exact fun x hx => ⟨Nat.le_trans hlo (hback x hx).1, (hback x hx).2⟩
  | none =>
    have hpos : 0 < u64Max := by decide
    apply ArtemisLight.writes_rising 
      (p.unripe (Nat.min_le_left (p.effectiveTip tip) (u64Max - 1)) fun _ => by omega)
    intro x hx
    have := hmax hbound x hx
    have := hback x hx
    omega

end ArtemisLight
