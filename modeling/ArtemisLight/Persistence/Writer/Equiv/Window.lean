import ArtemisLight.Persistence.Writer.Effects
import ArtemisLight.Persistence.Writer.Window

/-!
# What the operations of the confirmation window do

The pending map is read through `getElem?`: `rewind`, `accept` and `acceptSeeded` are described by
the group they leave at every sort key.  `flushLoop_rule` is the induction rule of the flush loop.
-/

namespace ArtemisLight

namespace ConfirmationWindow

variable {σ ρ P E : Type}

/-! ### Views of the pending map -/

/-- The rows buffered at a sort key. -/
def rowsAt (w : ConfirmationWindow P) (k : Nat) : List Row := (w.pending[k]?).elim [] Pending.rows

/-- Whether the group at a sort key is still the backfill's copy. -/
def seededAt (w : ConfirmationWindow P) (k : Nat) : Bool := (w.pending[k]?).any Pending.seeded

theorem getElem?_insert (m : Std.ExtTreeMap Nat (Pending P)) (k a : Nat) (p : Pending P) :
    (m.insert k p)[a]? = if a = k then some p else m[a]? := by
  rw [Std.ExtTreeMap.getElem?_insert]
  simp only [Nat.compare_eq_eq, eq_comm (a := a)]

theorem getElem?_erase (m : Std.ExtTreeMap Nat (Pending P)) (k a : Nat) :
    (m.erase k)[a]? = if a = k then none else m[a]? := by
  rw [Std.ExtTreeMap.getElem?_erase]
  simp only [Nat.compare_eq_eq, eq_comm (a := a)]

theorem getElem?_rewind (w : ConfirmationWindow P) (key k : Nat) :
    (w.rewind key).pending[k]? = (w.pending[k]?).bind fun p =>
      if key ≤ k then (if p.seeded then some p.unseed else none) else some p := by
  rw [rewind, Std.ExtTreeMap.getElem?_filterMap']

/-- A rewind empties every group at or above its key. -/
theorem rowsAt_rewind (w : ConfirmationWindow P) (key k : Nat) :
    (w.rewind key).rowsAt k = if key ≤ k then [] else w.rowsAt k := by
  unfold rowsAt
  rw [getElem?_rewind]
  rcases w.pending[k]? with _ | p
  · simp
  · by_cases hk : key ≤ k
    · cases hs : p.seeded <;> simp [hk, hs, Pending.unseed]
    · simp [hk]

theorem seededAt_rewind (w : ConfirmationWindow P) (key k : Nat) :
    (w.rewind key).seededAt k = (decide (k < key) && w.seededAt k) := by
  unfold seededAt
  rw [getElem?_rewind]
  rcases w.pending[k]? with _ | p
  · simp
  · by_cases hk : key ≤ k
    · have : ¬ k < key := by omega
      cases hs : p.seeded <;> simp [hk, hs, this, Pending.unseed]
    · have : k < key := by omega
      simp [hk, this]

theorem rowsAt_ne_nil {w : ConfirmationWindow P} {k : Nat} (h : w.rowsAt k ≠ []) :
    ∃ p, w.pending[k]? = some p ∧ w.rowsAt k = p.rows := by
  unfold rowsAt at h ⊢
  rcases hp : w.pending[k]? with _ | p
  · rw [hp] at h
    exact absurd rfl h
  · exact ⟨p, rfl, rfl⟩

theorem pending_of_seededAt {w : ConfirmationWindow P} {k : Nat} (h : w.seededAt k = true) :
    ∃ p, w.pending[k]? = some p ∧ p.seeded = true := by
  unfold seededAt at h
  rcases hp : w.pending[k]? with _ | p
  · rw [hp] at h
    exact absurd h (by simp)
  · rw [hp] at h
    exact ⟨p, rfl, h⟩

@[simp] theorem absorb_core [Position P] (w : ConfirmationWindow P) (settled : Option P) :
    (w.absorb settled).core = w.core := by
  cases settled <;> rfl

@[simp] theorem absorb_pending [Position P] (w : ConfirmationWindow P) (settled : Option P) :
    (w.absorb settled).pending = w.pending := by
  cases settled <;> rfl

theorem absorb_flushed_le [Position P] {w : ConfirmationWindow P} {f : Nat} (settled : Option P)
    (h : f ∈ w.flushed) : ∃ f' ∈ (w.absorb settled).flushed, f ≤ f' := by
  rcases settled with _ | p
  · exact ⟨f, h, Nat.le_refl _⟩
  · refine ⟨max f (Position.sortKey p), ?_, Nat.le_max_left _ _⟩
    simp [absorb, Option.mem_def.mp h]

/-! ### Accepting a live event -/

section Accept

variable [Position P] (hP : Position.reobservation P = .halt) (w : ConfirmationWindow P)
  (io : Io σ ρ P E) (position : P) (event : E) (row : Row)

/-- Whether a live event at `key` is a backwards re-emission. -/
def reorgAt (w : ConfirmationWindow P) (key : Nat) : Bool := w.head.any fun h => decide (key < h)

/-- The group an accepted live event is folded into, before its row is added. -/
def baseAt (w : ConfirmationWindow P) (key : Nat) : Option (Pending P) :=
  (w.pending[key]?).bind fun p =>
    if p.seeded then some p.unseed else if w.reorgAt key then none else some p

/-- The group at the key of an accepted live event. -/
def acceptedGroup (base : Option (Pending P)) (position : P) (row : Row) : Pending P :=
  match base with
  | none => ⟨position, [row], [], false⟩
  | some p =>
    { p with
      position := Position.advance (some p.position) position
      rows := p.rows ++ [row]
      expected :=
        if row ∈ p.expected then swapRemove p.expected (p.expected.idxOf row) else p.expected }

/-- What accepting a live event on a halting source leaves: the groups, the head, the effects and
the verdict. -/
structure Accepted (w : ConfirmationWindow P) (io : Io σ ρ P E) (position : P) (event : E)
    (row : Row)
    (w' : ConfirmationWindow P) (io' : Io σ ρ P E) (delivered : Bool) : Prop where
  pending : ∀ k, w'.pending[k]?
    = if k = Position.sortKey position then
        some (acceptedGroup (w.baseAt (Position.sortKey position)) position row)
      else if w.reorgAt (Position.sortKey position) then
        (w.rewind (Position.sortKey position)).pending[k]?
      else w.pending[k]?
  head : w'.head = some (Position.sortKey position)
  core : w'.core = w.core
  depth : w'.depth = w.depth
  flushed : w'.flushed = w.flushed
  watermark : w'.watermark = w.watermark
  record : io'.record = io.record
  store : io'.store = io.store
  effects : io'.effects
    = io.effects ++ (if w.reorgAt (Position.sortKey position) then
          [.rewound (Position.sortKey position)]
        else if w.seededAt (Position.sortKey position) then
          [.rebuilt (Position.sortKey position)]
        else []) ++ [.accepted .window position event row]
  delivered : delivered = false ↔
    ∃ p, w.baseAt (Position.sortKey position) = some p ∧ row ∈ p.expected

include hP in
theorem accept_halt : Accepted w io position event row (w.accept io position event row).1
    (w.accept io position event row).2.1 (w.accept io position event row).2.2 := by
  set key := Position.sortKey position with hkey
  have hseed : ∀ p, w.pending[key]? = some p → w.seededAt key = p.seeded := fun p hp => by
    rw [seededAt, hp]; rfl
  by_cases hr : w.reorgAt key = true
  · have hhead : (w.head.any fun h => decide (key < h)) = true := hr
    have hrew : (w.rewind key).pending[key]? = w.baseAt key := by
      rw [getElem?_rewind, baseAt]
      rcases w.pending[key]? with _ | p
      · rfl
      · cases hs : p.seeded <;> simp [hr, hs]
    -- a rewind leaves no seeded group at the key
    have hns : ∀ p, w.baseAt key = some p → p.seeded = false := by
      intro p hp
      rw [baseAt] at hp
      rcases hq : w.pending[key]? with _ | q
      · rw [hq] at hp; simp at hp
      · rw [hq] at hp
        cases hs : q.seeded <;> simp [hs, hr] at hp
        rw [← hp]; rfl
    unfold accept
    simp only [← hkey, hP, hhead, decide_true, and_self, if_true]
    unfold fold
    simp only [← hkey, hrew]
    rcases hb : w.baseAt key with _ | p
    · constructor <;> simp [acceptedGroup, getElem?_insert, rewind, hb, hr, ← hkey]
    · have hps := hns p hb
      by_cases hmem : row ∈ p.expected <;> constructor <;>
        simp [acceptedGroup, getElem?_insert, rewind, hps, hmem, hb, hr, ← hkey]
  · -- without a reorg the head only moves up
    have hhead : (w.head.any fun h => decide (key < h)) = false := by
      simpa [reorgAt] using hr
    have hhd : w.head.elim key (max · key) = key := by
      rcases hh : w.head with _ | h
      · rfl
      · rw [hh] at hhead
        simp only [Option.any_some, decide_eq_false_iff_not] at hhead
        simp only [Option.elim_some]
        omega
    unfold accept
    simp only [← hkey, hP, hhead, Bool.false_eq_true, and_false, decide_false, if_false]
    unfold fold
    simp only [← hkey]
    rcases hp : w.pending[key]? with _ | p
    · have : w.seededAt key = false := by rw [seededAt, hp]; rfl
      constructor <;> simp [acceptedGroup, getElem?_insert, baseAt, this, hhd, hr, hp, ← hkey]
    · have hsd := hseed p hp
      cases hs : p.seeded
      · by_cases hmem : row ∈ p.expected <;> constructor <;>
          simp [acceptedGroup, getElem?_insert, baseAt, hP, hs, hmem, hsd, hhd, hr, hp, ← hkey]
      · by_cases hmem : row ∈ p.rows <;> constructor <;>
          simp [acceptedGroup, getElem?_insert, baseAt, hP, hs, hmem, hsd, hhd, hr, hp, ← hkey,
            Pending.unseed]

namespace Accepted

variable {w : ConfirmationWindow P} {io : Io σ ρ P E} {position : P} {event : E} {row : Row}
  {w' : ConfirmationWindow P} {io' : Io σ ρ P E} {delivered : Bool}

/-- The rows after accepting: the event's group starts afresh when it was rewound or still the
backfill's copy, and a rewind empties everything above it. -/
theorem rowsAt (h : Accepted w io position event row w' io' delivered) (k : Nat) :
    w'.rowsAt k = if k = Position.sortKey position then
        (if w.reorgAt (Position.sortKey position) || w.seededAt (Position.sortKey position) then []
          else w.rowsAt (Position.sortKey position)) ++ [row]
      else if w.reorgAt (Position.sortKey position) ∧ Position.sortKey position ≤ k then []
      else w.rowsAt k := by
  unfold ConfirmationWindow.rowsAt
  rw [h.pending k]
  set key := Position.sortKey position
  by_cases hk : k = key
  · rw [if_pos hk, if_pos hk]
    unfold baseAt seededAt
    rcases w.pending[key]? with _ | p
    · simp [acceptedGroup]
    · cases hs : p.seeded <;> cases w.reorgAt key <;>
        simp [acceptedGroup, hs, Pending.unseed]
  · rw [if_neg hk, if_neg hk]
    cases hr : w.reorgAt key
    · simp
    · have := rowsAt_rewind w key k
      unfold ConfirmationWindow.rowsAt at this
      simp [this]

theorem seededAt (h : Accepted w io position event row w' io' delivered) (k : Nat) :
    w'.seededAt k = (decide (k ≠ Position.sortKey position) &&
      !(w.reorgAt (Position.sortKey position) && decide (Position.sortKey position ≤ k)) &&
      w.seededAt k) := by
  unfold ConfirmationWindow.seededAt
  rw [h.pending k]
  set key := Position.sortKey position
  by_cases hk : k = key
  · rw [if_pos hk]
    unfold baseAt
    rcases w.pending[key]? with _ | p
    · simp [acceptedGroup, hk]
    · cases hs : p.seeded <;> cases hr : w.reorgAt key <;>
        simp [acceptedGroup, hs, hk, Pending.unseed]
  · rw [if_neg hk]
    cases hr : w.reorgAt key
    · simp [hk]
    · have := seededAt_rewind w key k
      unfold ConfirmationWindow.seededAt at this
      rw [if_pos rfl, this]
      by_cases hlt : k < key
      · have : ¬ key ≤ k := by omega
        simp [hlt, this, hk]
      · have : key ≤ k := by omega
        simp [hlt, this]

theorem held (h : Accepted w io position event row w' io' delivered) (k : Nat) :
    ArtemisLight.held io'.effects k = if k = Position.sortKey position then
        (if w.reorgAt (Position.sortKey position) || w.seededAt (Position.sortKey position) then []
          else ArtemisLight.held io.effects (Position.sortKey position)) ++ [(event, row)]
      else if w.reorgAt (Position.sortKey position) ∧ Position.sortKey position ≤ k then []
      else ArtemisLight.held io.effects k := by
  rw [h.effects, held_concat_accepted]
  set key := Position.sortKey position
  by_cases hk : k = key
  · rw [hk]
    cases w.reorgAt key <;> cases w.seededAt key <;> simp
  · cases w.reorgAt key <;> cases w.seededAt key <;> simp [hk]

end Accepted

end Accept

/-! ### Accepting a backfill-tail event -/

section AcceptSeeded

variable [Position P] (w : ConfirmationWindow P) (io : Io σ ρ P E) (position : P) (event : E)
  (row : Row)

/-- The group at the key of an accepted backfill-tail event. -/
def seededGroup (base : Option (Pending P)) (position : P) (row : Row) : Pending P :=
  match base with
  | none => ⟨position, [row], [], true⟩
  | some p =>
    { p with position := Position.advance (some p.position) position, rows := p.rows ++ [row] }

theorem acceptSeeded_getElem? (k : Nat) : (w.acceptSeeded io position event row).1.pending[k]?
    = if k = Position.sortKey position then
        some (seededGroup (w.pending[Position.sortKey position]?) position row)
      else w.pending[k]? := by
  unfold acceptSeeded
  rcases hp : w.pending[Position.sortKey position]? with _ | p <;>
    simp [getElem?_insert, seededGroup, hp]

theorem rowsAt_acceptSeeded (k : Nat) : (w.acceptSeeded io position event row).1.rowsAt k
    = if k = Position.sortKey position then w.rowsAt k ++ [row] else w.rowsAt k := by
  unfold rowsAt
  rw [acceptSeeded_getElem?]
  by_cases hk : k = Position.sortKey position
  · subst hk
    rcases w.pending[Position.sortKey position]? with _ | p <;> simp [seededGroup]
  · simp [hk]

/-- A group first buffered here is marked seeded; one that exists keeps its mark. -/
theorem seededAt_acceptSeeded (k : Nat) : (w.acceptSeeded io position event row).1.seededAt k
    = if k = Position.sortKey position then
        (w.pending[Position.sortKey position]?).isNone || w.seededAt k
      else w.seededAt k := by
  unfold seededAt
  rw [acceptSeeded_getElem?]
  by_cases hk : k = Position.sortKey position
  · subst hk
    rcases w.pending[Position.sortKey position]? with _ | p <;> simp [seededGroup]
  · simp [hk]

@[simp] theorem acceptSeeded_head : (w.acceptSeeded io position event row).1.head
    = some (w.head.elim (Position.sortKey position) (max · (Position.sortKey position))) := rfl

@[simp] theorem acceptSeeded_effects : (w.acceptSeeded io position event row).2.effects
    = io.effects ++ [.accepted .window position event row] := rfl

end AcceptSeeded

/-! ### The flush loop -/

/-- The induction rule of the flush loop: `I` holds before each of the remaining keys, a written
group preserves it, and it implies `J` at the end as well as, of the dropped window, after a failed
write. -/
theorem flushLoop_rule [Position P] [Store σ P]
    (I : ConfirmationWindow P → Io σ ρ P E → List Nat → Prop)
    (J : ConfirmationWindow P → Io σ ρ P E → Prop) {schema : TableSchema}
    (hskip : ∀ w io b bs, w.pending[b]? = none → I w io (b :: bs) → I w io bs)
    (hok : ∀ w io b bs p store, w.pending[b]? = some p → I w io (b :: bs) →
      Store.write io.store schema p.position p.rows = (.ok (), store) →
      I (w.finalize b p) (({ io with store } : Io σ ρ P E).emit
        (.wrote w.core.writer p.position p.rows)) bs)
    (hfail : ∀ w io b bs p e store, w.pending[b]? = some p → I w io (b :: bs) →
      Store.write io.store schema p.position p.rows = (.error e, store) →
      J { w with core := { w.core with healthy := false }, pending := ∅ }
        (({ io with store } : Io σ ρ P E).emit (.halted w.core.writer (.write e))))
    (hdone : ∀ w io, I w io [] → J w io) :
    ∀ (bs : List Nat) (w : ConfirmationWindow P) (io : Io σ ρ P E),
      w.core.schema = some schema → I w io bs →
      J (w.flushLoop io bs).1 (w.flushLoop io bs).2 := by
  intro bs
  induction bs with
  | nil => exact fun w io _ hI => hdone w io hI
  | cons b bs ih =>
    intro w io hs hI
    unfold flushLoop
    rcases hp : w.pending[b]? with _ | p
    · exact ih w io hs (hskip w io b bs hp hI)
    · rcases GapFreeWriter.flush_cases hs io p.position p.rows with
        ⟨store, hw, hf⟩ | ⟨e, store, hw, hf⟩
      · simp only [hf]
        exact ih _ _ hs (hok w io b bs p store hp hI hw)
      · simp only [hf]
        exact hfail w io b bs p e store hp hI hw

/-- What a flush over the sort keys `bs` leaves behind: it appends writes of groups at these keys,
and at most one halt, and while the window stays healthy it removes exactly these groups. -/
structure Flush [Position P] (w : ConfirmationWindow P) (io : Io σ ρ P E) (bs : List Nat)
    (w' : ConfirmationWindow P) (io' : Io σ ρ P E) : Prop where
  head : w'.head = w.head
  depth : w'.depth = w.depth
  writer : w'.core.writer = w.core.writer
  schema : w'.core.schema = w.core.schema
  record : io'.record = io.record
  effects : ∃ fl, io'.effects = io.effects ++ fl ∧ ∀ x ∈ fl,
    (∃ b ∈ bs, ∃ p, w.pending[b]? = some p ∧ x = .wrote w.core.writer p.position p.rows) ∨
      ∃ e, x = .halted w.core.writer (.write e)
  pending : w'.core.healthy = true →
    w.core.healthy = true ∧ ∀ k, w'.pending[k]? = if k ∈ bs then none else w.pending[k]?
  flushed : ∀ f ∈ w'.flushed, f ∈ w.flushed ∨ f ∈ bs
  flushed_le : ∀ f ∈ w.flushed, ∃ f' ∈ w'.flushed, f ≤ f'
  above : w'.core.healthy = true → ∀ b ∈ bs, ∀ p, w.pending[b]? = some p → ∃ f ∈ w'.flushed, b ≤ f

/-- A sort key without a group is passed over. -/
theorem Flush.skip [Position P] {w w' : ConfirmationWindow P} {io io' : Io σ ρ P E} {b : Nat}
    {bs : List Nat} (h : Flush w io bs w' io') (hp : w.pending[b]? = none) :
    Flush w io (b :: bs) w' io' := by
  refine ⟨h.head, h.depth, h.writer, h.schema, h.record, ?_, fun hh => ?_, fun f hf => ?_,
    h.flushed_le, fun hh b' hb' q hq => ?_⟩
  · obtain ⟨fl, hfl, hx⟩ := h.effects
    refine ⟨fl, hfl, fun x hm => (hx x hm).imp_left ?_⟩
    rintro ⟨b', hb', h⟩
    exact ⟨b', List.mem_cons_of_mem _ hb', h⟩
  · obtain ⟨hw, hpend⟩ := h.pending hh
    refine ⟨hw, fun k => ?_⟩
    rw [hpend]
    by_cases hk : k = b
    · simp [hk, hp]
    · simp [hk]
  · exact (h.flushed f hf).imp_right (List.mem_cons_of_mem _)
  · rcases List.mem_cons.mp hb' with rfl | hb'
    · rw [hp] at hq
      exact absurd hq (by simp)
    · exact h.above hh b' hb' q hq

theorem finalize_getElem? [Position P] {w : ConfirmationWindow P} {b : Nat} {p q : Pending P}
    (k : Nat)
    (hq : (w.finalize b p).pending[k]? = some q) : w.pending[k]? = some q := by
  rw [finalize, getElem?_erase] at hq
  split at hq
  · exact absurd hq (by simp)
  · exact hq

/-- A group that is written is finalized before the others are flushed. -/
theorem Flush.write [Position P] {w w' : ConfirmationWindow P} {io io' : Io σ ρ P E} {b : Nat}
    {bs : List Nat} {p : Pending P} {store : σ} (hp : w.pending[b]? = some p)
    (h : Flush (w.finalize b p)
      (({ io with store } : Io σ ρ P E).emit (.wrote w.core.writer p.position p.rows)) bs w' io') :
    Flush w io (b :: bs) w' io' := by
  have hb : ∃ f ∈ (w.finalize b p).flushed, b ≤ f := by
    refine ⟨_, rfl, ?_⟩
    rcases w.flushed with _ | f
    · exact Nat.le_refl _
    · exact Nat.le_max_right _ _
  refine ⟨h.head, h.depth, h.writer, h.schema, h.record, ?_, fun hh => ?_, fun f hf => ?_,
    fun f hf => ?_, fun hh b' hb' q hq => ?_⟩
  · obtain ⟨fl, hfl, hx⟩ := h.effects
    refine ⟨.wrote w.core.writer p.position p.rows :: fl, by rw [hfl]; simp, fun x hm => ?_⟩
    rcases List.mem_cons.mp hm with rfl | hm
    · exact Or.inl ⟨b, by simp, p, hp, rfl⟩
    · rcases hx x hm with ⟨b', hb', q, hq, rfl⟩ | hx
      · exact Or.inl ⟨b', List.mem_cons_of_mem _ hb', q, finalize_getElem? b' hq, rfl⟩
      · exact Or.inr hx
  · obtain ⟨hw, hpend⟩ := h.pending hh
    refine ⟨hw, fun k => ?_⟩
    rw [hpend, finalize, getElem?_erase]
    by_cases hk : k = b <;> by_cases hm : k ∈ bs <;> simp [hk, hm]
  · -- the mark after the write is the old one or the key that was written
    rcases h.flushed f hf with hf | hf
    · rw [finalize, Option.mem_def, Option.some.injEq] at hf
      rcases hw : w.flushed with _ | f'
      · rw [hw] at hf
        exact Or.inr (by simp [← hf])
      · rw [hw, Option.elim_some] at hf
        rcases Nat.le_total b f' with hle | hle
        · rw [Nat.max_eq_left hle] at hf
          exact Or.inl (by simp [hf])
        · rw [Nat.max_eq_right hle] at hf
          exact Or.inr (by simp [hf])
    · exact Or.inr (List.mem_cons_of_mem _ hf)
  · obtain ⟨f', hf', hle⟩ := h.flushed_le (max f b) (by simp [finalize, Option.mem_def.mp hf])
    exact ⟨f', hf', by omega⟩
  · by_cases hbb : b' = b
    · obtain ⟨f, hf, hle⟩ := hb
      obtain ⟨f', hf', hle'⟩ := h.flushed_le f hf
      exact ⟨f', hf', by omega⟩
    · apply h.above hh b' ((List.mem_cons.mp hb').resolve_left hbb) q
      rw [finalize, getElem?_erase, if_neg hbb]
      exact hq

theorem flushLoop_spec [Position P] [Store σ P] : ∀ (bs : List Nat) (w : ConfirmationWindow P)
    (io : Io σ ρ P E), (∀ (k : Nat) p, w.pending[k]? = some p → w.core.schema.isSome) →
      Flush w io bs (w.flushLoop io bs).1 (w.flushLoop io bs).2 := by
  intro bs
  induction bs with
  | nil =>
    intro w io _
    exact ⟨rfl, rfl, rfl, rfl, rfl, ⟨[], by simp [flushLoop], by simp⟩,
      fun h => ⟨h, by simp [flushLoop]⟩, fun f hf => Or.inl hf,
      fun f hf => ⟨f, hf, Nat.le_refl _⟩, fun _ b hb => absurd hb (by simp)⟩
  | cons b bs ih =>
    intro w io hsch
    unfold flushLoop
    rcases hp : w.pending[b]? with _ | p
    · exact (ih w io hsch).skip hp
    · obtain ⟨schema, hs⟩ := Option.isSome_iff_exists.mp (hsch b p hp)
      rcases GapFreeWriter.flush_cases hs io p.position p.rows with
        ⟨store, -, hf⟩ | ⟨e, store, -, hf⟩
      · simp only [hf]
        exact Flush.write hp (ih _ _ fun k q hq => hsch k q (finalize_getElem? k hq))
      · -- a failed write halts the window and drops its groups
        simp only [hf]
        refine ⟨rfl, rfl, rfl, rfl, rfl, ⟨[_], rfl, fun x hm => Or.inr ⟨e, ?_⟩⟩, fun hh => ?_,
          fun f hf => Or.inl hf, fun f hf => ⟨f, hf, Nat.le_refl _⟩, fun hh => absurd hh (by simp)⟩
        · exact List.mem_singleton.mp hm
        · exact absurd hh (by simp)

theorem mem_matured {w : ConfirmationWindow P} {head k : Nat} :
    k ∈ w.matured head ↔ (∃ p, w.pending[k]? = some p) ∧ saturatingAdd u64Max k w.depth ≤ head := by
  unfold matured
  rw [List.mem_filter, Std.ExtTreeMap.mem_keys, Std.ExtTreeMap.mem_iff_isSome_getElem?,
    Option.isSome_iff_exists, decide_eq_true_eq]

/-- Flushing flushes exactly the groups that are buried `depth` deep. -/
theorem flushMatured_matured [Position P] [Store σ P] (w : ConfirmationWindow P) (io : Io σ ρ P E)
    (hsch : ∀ (k : Nat) p, w.pending[k]? = some p → w.core.schema.isSome) :
    ∃ bs, (∀ b, b ∈ bs ↔ (∃ p, w.pending[b]? = some p) ∧
        ∃ head ∈ w.head, saturatingAdd u64Max b w.depth ≤ head) ∧
      Flush w io bs (w.flushMatured io).1 (w.flushMatured io).2 := by
  unfold flushMatured
  rcases hh : w.head with _ | head
  · exact ⟨[], by simp, flushLoop_spec [] w io hsch⟩
  · refine ⟨w.matured head, fun b => ?_, flushLoop_spec (w.matured head) w io hsch⟩
    simp [mem_matured]

/-- What flushing the matured groups leaves behind. -/
theorem flushMatured_spec [Position P] [Store σ P] (w : ConfirmationWindow P) (io : Io σ ρ P E)
    (hsch : ∀ (k : Nat) p, w.pending[k]? = some p → w.core.schema.isSome) :
    ∃ bs, (∀ b ∈ bs, ∃ head ∈ w.head, saturatingAdd u64Max b w.depth ≤ head) ∧
      Flush w io bs (w.flushMatured io).1 (w.flushMatured io).2 := by
  obtain ⟨bs, hbs, h⟩ := flushMatured_matured w io hsch
  exact ⟨bs, fun b hb => ((hbs b).mp hb).2, h⟩

/-- A flush takes the groups at its keys away. -/
theorem Flush.seededAt [Position P] {w w' : ConfirmationWindow P} {io io' : Io σ ρ P E}
    {bs : List Nat} (h : Flush w io bs w' io') (hh : w'.core.healthy = true) (k : Nat) :
    w'.seededAt k = (decide (k ∉ bs) && w.seededAt k) := by
  unfold ConfirmationWindow.seededAt
  rw [(h.pending hh).2]
  by_cases hk : k ∈ bs <;> simp [hk]

theorem matured_pairwise (w : ConfirmationWindow P) (head : Nat) :
    (w.matured head).Pairwise (· < ·) := by
  unfold matured
  refine List.Pairwise.filter _ ?_
  have h := Std.ExtTreeMap.ordered_keys (t := w.pending)
  simpa only [Nat.compare_eq_lt] using h

/-! ### The operations, case by case -/

section Cases

variable [Position P] (hP : Position.reobservation P = .halt) (w : ConfirmationWindow P)
  (io : Io σ ρ P E) (position : P)

/-- The window after a halt. -/
def halted (w : ConfirmationWindow P) : ConfirmationWindow P :=
  { w with core := { w.core with healthy := false }, pending := ∅ }

/-- The window with a write schema captured. -/
def withSchema (w : ConfirmationWindow P) (schema : TableSchema) : ConfirmationWindow P :=
  { w with core := { w.core with schema := some schema } }

include hP in
/-- What recording a live event does on a halting source. -/
theorem record_cases [Store σ P] [RecordOps ρ E] (event : E) :
    (w.core.healthy = false ∧ w.record io position event = (w, io, true)) ∨
    (w.core.healthy = true ∧ (∃ f ∈ w.flushed, Position.sortKey position ≤ f) ∧
      w.record io position event = (w.halted,
        io.emit (.halted w.core.writer (.reobserved position w.depth)), true)) ∨
    (w.core.healthy = true ∧ (∀ f ∈ w.flushed, f < Position.sortKey position) ∧
      ∃ e record, RecordOps.encode io.record event = (.error e, record) ∧
        w.record io position event = (w.halted,
          ({ io with record } : Io σ ρ P E).emit (.halted w.core.writer (.encode e)), true)) ∨
    (w.core.healthy = true ∧ (∀ f ∈ w.flushed, f < Position.sortKey position) ∧
      ∃ row schema record w' io' delivered,
        RecordOps.encode io.record event = (.ok row, record) ∧
        Accepted (w.withSchema schema) { io with record } position event row w' io' delivered ∧
        w.record io position event
          = ((w'.flushMatured io').1, (w'.flushMatured io').2, delivered)) := by
  cases hh : w.core.healthy
  · exact Or.inl ⟨rfl, by simp [record, hh]⟩
  · -- what has been flushed is checked before the event is encoded
    by_cases hf : ∃ f ∈ w.flushed, Position.sortKey position ≤ f
    · refine Or.inr (Or.inl ⟨rfl, hf, ?_⟩)
      obtain ⟨f, hf, hle⟩ := hf
      simp [record, hh, hP, Option.mem_def.mp hf, hle, failWith, GapFreeWriter.fail, halted]
    · have hlt : ∀ f ∈ w.flushed, f < Position.sortKey position := fun f hm =>
        Nat.lt_of_not_le fun hle => hf ⟨f, hm, hle⟩
      have hany : (w.flushed.any fun f => decide (Position.sortKey position ≤ f)) = false := by
        rcases hw : w.flushed with _ | f
        · rfl
        · have := hlt f hw
          simp only [Option.any_some, decide_eq_false_iff_not]
          omega
      rcases GapFreeWriter.encode_cases w.core io event with
        ⟨row, schema, record, he, hc⟩ | ⟨e, record, he, hc⟩
      · refine Or.inr (Or.inr (Or.inr ⟨rfl, hlt, row, schema, record, _, _, _, he,
          accept_halt hP (w.withSchema schema) { io with record } position event row, ?_⟩))
        simp [ConfirmationWindow.record, hh, hP, hany, hc, withSchema]
      · refine Or.inr (Or.inr (Or.inl ⟨rfl, hlt, e, record, he, ?_⟩))
        simp [ConfirmationWindow.record, hh, hP, hany, hc, halted]

include hP in
/-- What recording a backfill-tail event does on a halting source. -/
theorem recordSeeded_cases [Store σ P] [RecordOps ρ E] (event : E) :
    (w.core.healthy = false ∧ w.recordSeeded io position event = (w, io, true)) ∨
    (w.core.healthy = true ∧ ∃ h ∈ w.head, Position.sortKey position < h ∧
      w.recordSeeded io position event = (w.halted,
        io.emit (.halted w.core.writer (.unorderedSeed position h)), true)) ∨
    (w.core.healthy = true ∧ (∀ h ∈ w.head, h ≤ Position.sortKey position) ∧
      ∃ e record, RecordOps.encode io.record event = (.error e, record) ∧
        w.recordSeeded io position event = (w.halted,
          ({ io with record } : Io σ ρ P E).emit (.halted w.core.writer (.encode e)), true)) ∨
    (w.core.healthy = true ∧ (∀ h ∈ w.head, h ≤ Position.sortKey position) ∧
      ∃ row schema record, RecordOps.encode io.record event = (.ok row, record) ∧
        w.recordSeeded io position event
          = ((((w.withSchema schema).acceptSeeded
            { io with record } position event row).1.flushMatured
              (({ io with record } : Io σ ρ P E).emit (.accepted .window position event row))).1,
            (((w.withSchema schema).acceptSeeded
              { io with record } position event row).1.flushMatured
              (({ io with record } : Io σ ρ P E).emit (.accepted .window position event row))).2,
            true)) := by
  cases hh : w.core.healthy
  · exact Or.inl ⟨rfl, by simp [recordSeeded, hh]⟩
  · by_cases hlt : ∃ h ∈ w.head, Position.sortKey position < h
    · obtain ⟨h, hm, hlt⟩ := hlt
      refine Or.inr (Or.inl ⟨rfl, h, hm, hlt, ?_⟩)
      have hfil : (w.head.filter fun h => decide (Position.sortKey position < h)) = some h := by
        rw [Option.mem_def.mp hm]
        simp [hlt]
      simp [recordSeeded, hh, hP, hfil, failWith, GapFreeWriter.fail, halted]
    · have hle : ∀ h ∈ w.head, h ≤ Position.sortKey position := fun h hm =>
        Nat.le_of_not_lt fun hl => hlt ⟨h, hm, hl⟩
      have hfil : (w.head.filter fun h => decide (Position.sortKey position < h)) = none := by
        rcases hw : w.head with _ | h
        · rfl
        · have := hle h hw
          simp only [Option.filter_some, ite_eq_right_iff, decide_eq_true_eq, reduceCtorEq]
          omega
      rcases GapFreeWriter.encode_cases w.core io event with
        ⟨row, schema, record, he, hc⟩ | ⟨e, record, he, hc⟩
      · refine Or.inr (Or.inr (Or.inr ⟨rfl, hle, row, schema, record, he, ?_⟩))
        have hio : ((w.withSchema schema).acceptSeeded { io with record } position event row).2
            = ({ io with record } : Io σ ρ P E).emit (.accepted .window position event row) := rfl
        rw [← hio]
        simp [recordSeeded, hh, hP, hfil, hc, withSchema]
      · refine Or.inr (Or.inr (Or.inl ⟨rfl, hle, e, record, he, ?_⟩))
        simp [recordSeeded, hh, hP, hfil, hc, halted]

include hP in
/-- What a retraction does on a halting source. -/
theorem retract_cases :
    (w.core.healthy = false ∧ w.retract io position = (w, io)) ∨
    (w.core.healthy = true ∧ (∃ f ∈ w.flushed, Position.sortKey position ≤ f) ∧
      w.retract io position = (w.halted,
        io.emit (.halted w.core.writer (.retracted position w.depth)))) ∨
    (w.core.healthy = true ∧ (∀ f ∈ w.flushed, f < Position.sortKey position) ∧
      w.retract io position = ({ w.rewind (Position.sortKey position) with
        head := w.head.map (min · (Position.sortKey position - 1)) },
        io.emit (.rewound (Position.sortKey position)))) := by
  cases hh : w.core.healthy
  · exact Or.inl ⟨rfl, by simp [retract, hh]⟩
  · by_cases hf : ∃ f ∈ w.flushed, Position.sortKey position ≤ f
    · refine Or.inr (Or.inl ⟨rfl, hf, ?_⟩)
      obtain ⟨f, hf, hle⟩ := hf
      simp [retract, hh, hP, Option.mem_def.mp hf, hle, failWith, GapFreeWriter.fail, halted]
    · have hlt : ∀ f ∈ w.flushed, f < Position.sortKey position := fun f hm =>
        Nat.lt_of_not_le fun hle => hf ⟨f, hm, hle⟩
      refine Or.inr (Or.inr ⟨rfl, hlt, ?_⟩)
      have hany : (w.flushed.any fun f => decide (Position.sortKey position ≤ f)) = false := by
        rcases hw : w.flushed with _ | f
        · rfl
        · have := hlt f hw
          simp only [Option.any_some, decide_eq_false_iff_not]
          omega
      simp [retract, hh, hP, hany]

end Cases

end ConfirmationWindow

end ArtemisLight
