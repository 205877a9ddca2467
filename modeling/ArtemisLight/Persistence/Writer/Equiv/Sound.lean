import Mathlib.Logic.Relation
import ArtemisLight.Persistence.Writer.Equiv.Retract

/-!
# The representation invariant of the confirmation window

`Sound` says how the fields of a window on a halting source hang together.  Seeding, absorbing,
recording, retracting and halting each keep it, in the order in which a subscription makes these
calls: the backfill tail is seeded first, the settled writer's watermark is absorbed, and the live
stream follows.
-/

namespace ArtemisLight

namespace ConfirmationWindow

variable {σ ρ P E : Type} [Position P]

/-! ### The invariant -/

/-- A group that may stand under a sort key. -/
structure Filed (k : Nat) (pending : Pending P) : Prop where
  sortKey : Position.sortKey pending.position = k
  /-- Nothing of a backfill copy has been re-emitted yet. -/
  expected : pending.seeded = true → pending.expected = []

/-- The flushed mark is the sort key of the watermark. -/
def Marked (w : ConfirmationWindow P) : Prop := w.flushed = w.watermark.map Position.sortKey

/-- The groups of a window, each at its own sort key, with a write schema captured for them. -/
structure Kept (w : ConfirmationWindow P) : Prop where
  dropped : w.Dropped
  filed : ∀ (k : Nat) p, w.pending[k]? = some p → Filed k p
  captured : ∀ (k : Nat) p, w.pending[k]? = some p → w.core.schema.isSome
  marked : w.Marked

/-- The representation invariant of a window on a halting source. -/
structure Sound (w : ConfirmationWindow P) : Prop extends Kept w where
  above : ∀ (k : Nat) p, w.pending[k]? = some p → ∀ f ∈ w.flushed, f < k
  /-- No pending group is buried `depth` deep. -/
  buried : ∀ (k : Nat) p, w.pending[k]? = some p → ∀ h ∈ w.head, h < k + w.depth

/-! ### Groups at their sort keys -/

omit [Position P] in
@[simp] theorem unseed_position (p : Pending P) : p.unseed.position = p.position := rfl

omit [Position P] in
@[simp] theorem unseed_seeded (p : Pending P) : p.unseed.seeded = false := rfl

theorem Filed.unseed {k : Nat} {p : Pending P} (h : Filed k p) : Filed k p.unseed :=
  ⟨h.sortKey, fun hs => absurd hs (by simp)⟩

theorem Filed.rewind {w : ConfirmationWindow P} (h : ∀ (k : Nat) p, w.pending[k]? = some p →
    Filed k p) {key k : Nat} {p : Pending P} (hp : (w.rewind key).pending[k]? = some p) :
    Filed k p := by
  rw [getElem?_rewind] at hp
  obtain ⟨q, hq, hp⟩ := Option.bind_eq_some_iff.mp hp
  split at hp
  · split at hp
    · rw [← Option.some.inj hp]
      exact (h k q hq).unseed
    · exact nomatch hp
  · rw [← Option.some.inj hp]
    exact h k q hq

omit [Position P] in
/-- A rewound window has a group only where there was one. -/
theorem pending_of_rewind {w : ConfirmationWindow P} {key k : Nat} {p : Pending P}
    (hp : (w.rewind key).pending[k]? = some p) : ∃ q, w.pending[k]? = some q := by
  rw [getElem?_rewind] at hp
  obtain ⟨q, hq, -⟩ := Option.bind_eq_some_iff.mp hp
  exact ⟨q, hq⟩

/-- The group that a live event meets at its own sort key is no longer the backfill's copy. -/
theorem filed_baseAt {w : ConfirmationWindow P} (h : ∀ (k : Nat) p, w.pending[k]? = some p →
    Filed k p) (key : Nat) : ∀ p ∈ w.baseAt key, Filed key p ∧ p.seeded = false := by
  intro p hp
  rw [Option.mem_def, baseAt] at hp
  obtain ⟨q, hq, hp⟩ := Option.bind_eq_some_iff.mp hp
  split at hp
  case isTrue =>
    rw [← Option.some.inj hp]
    exact ⟨(h key q hq).unseed, rfl⟩
  case isFalse hs =>
    split at hp
    · exact absurd hp (by simp)
    · rw [← Option.some.inj hp]
      exact ⟨h key q hq, Bool.eq_false_iff.mpr hs⟩

variable [LawfulPosition P]

/-- Folding an event into the group at its own sort key leaves it there. -/
theorem sortKey_advance_self {p : Pending P} {position : P}
    (h : Position.sortKey p.position = Position.sortKey position) :
    Position.sortKey (Position.advance (some p.position) position) = Position.sortKey position := by
  rw [LawfulPosition.sortKey_advance, h, Nat.max_self]

theorem Filed.accepted {position : P} {row : Row} {base : Option (Pending P)}
    (h : ∀ p ∈ base, Filed (Position.sortKey position) p ∧ p.seeded = false) :
    Filed (Position.sortKey position) (acceptedGroup base position row) := by
  rcases base with _ | p
  · exact ⟨rfl, fun hs => absurd hs (by simp [acceptedGroup])⟩
  · obtain ⟨hp, hs⟩ := h p rfl
    refine ⟨sortKey_advance_self hp.sortKey, fun hs' => ?_⟩
    -- the live tail has touched the group
    have : p.seeded = true := hs'
    exact absurd (hs.symm.trans this) (by simp)

theorem Filed.seeded {position : P} {row : Row} {base : Option (Pending P)}
    (h : ∀ p ∈ base, Filed (Position.sortKey position) p) :
    Filed (Position.sortKey position) (seededGroup base position row) := by
  rcases base with _ | p
  · exact ⟨rfl, fun _ => rfl⟩
  · have hp := h p rfl
    exact ⟨sortKey_advance_self hp.sortKey, hp.expected⟩

/-! ### The flush loop -/

/-- Folding a position into the watermark moves the mark to the higher of the two sort keys. -/
theorem elim_sortKey_advance (watermark : Option P) (position : P) :
    (watermark.map Position.sortKey).elim (Position.sortKey position)
        (max · (Position.sortKey position))
      = Position.sortKey (Position.advance watermark position) := by
  rcases watermark with _ | m
  · rw [LawfulPosition.advance_none]
    rfl
  · exact (LawfulPosition.sortKey_advance m position).symm

theorem Marked.finalize {w : ConfirmationWindow P} (h : w.Marked) {b : Nat} {p : Pending P}
    (hp : Position.sortKey p.position = b) : (w.finalize b p).Marked := by
  show some (w.flushed.elim b (max · b)) = some _
  rw [h, ← hp, elim_sortKey_advance]

theorem Marked.absorb {w : ConfirmationWindow P} (h : w.Marked) (settled : Option P) :
    (w.absorb settled).Marked := by
  rcases settled with _ | position
  · exact h
  · show some (w.flushed.elim (Position.sortKey position) (max · (Position.sortKey position)))
      = some _
    rw [h, elim_sortKey_advance]

variable [Store σ P]

/-- Every write moves the mark and the watermark together. -/
theorem Marked.flushLoop {bs : List Nat} : ∀ {w : ConfirmationWindow P} {io : Io σ ρ P E},
    w.Marked → (∀ (k : Nat) p, w.pending[k]? = some p → Filed k p) →
      (w.flushLoop io bs).1.Marked := by
  induction bs with
  | nil => exact fun h _ => h
  | cons b bs ih =>
    intro w io h hfiled
    unfold ConfirmationWindow.flushLoop
    rcases hp : w.pending[b]? with _ | p
    · exact ih h hfiled
    · rcases hf : w.core.flush io p.position p.rows with ⟨_ | _, core, io'⟩ <;> simp only [hf]
      · exact h
      · apply ih
        · exact Marked.finalize (w := { w with core }) h (hfiled b p hp).sortKey
        · exact fun k q hq => hfiled k q (finalize_getElem? (w := { w with core }) k hq)

/-- Flushing keeps the invariant if the groups that stay were above the mark: what it writes is
buried deeper than they are. -/
theorem Kept.flushMatured {w : ConfirmationWindow P} (h : Kept w) (io : Io σ ρ P E)
    (habove : ∀ (k : Nat) p, w.pending[k]? = some p →
      (∀ head ∈ w.head, head < saturatingAdd u64Max k w.depth) → ∀ f ∈ w.flushed, f < k) :
    Sound (w.flushMatured io).1 := by
  obtain ⟨bs, hbs, hflush⟩ := flushMatured_matured w io h.captured
  have hdropped : (w.flushMatured io).1.Dropped := dropped_flushMatured h.dropped
  -- a group that is left was there before and is not buried
  have hleft : ∀ (k : Nat) p, (w.flushMatured io).1.pending[k]? = some p →
      w.pending[k]? = some p ∧ ∀ head ∈ w.head, head < saturatingAdd u64Max k w.depth := by
    intro k p hp
    have hhealthy : (w.flushMatured io).1.core.healthy = true := by
      by_contra hw
      rw [hdropped (Bool.eq_false_iff.mpr hw) k] at hp
      exact nomatch hp
    rw [(hflush.pending hhealthy).2 k] at hp
    split at hp
    case isTrue => exact nomatch hp
    case isFalse hk =>
      refine ⟨hp, fun head hhead => Nat.lt_of_not_le fun hle => hk ?_⟩
      exact (hbs k).mpr ⟨⟨p, hp⟩, head, hhead, hle⟩
  refine ⟨⟨hdropped, ?_, ?_, ?_⟩, ?_, ?_⟩
  · exact fun k p hp => h.filed k p (hleft k p hp).1
  · intro k p hp
    rw [hflush.schema]
    exact h.captured k p (hleft k p hp).1
  · unfold ConfirmationWindow.flushMatured
    rcases w.head with _ | head
    · exact h.marked
    · exact h.marked.flushLoop h.filed
  · intro k p hp f hf
    obtain ⟨hp, hunripe⟩ := hleft k p hp
    rcases hflush.flushed f hf with hf | hf
    · exact habove k p hp hunripe f hf
    · obtain ⟨-, head, hhead, hle⟩ := (hbs f).mp hf
      have := hunripe head hhead
      unfold saturatingAdd at hle this
      omega
  · intro k p hp head hhead
    rw [hflush.head] at hhead
    rw [hflush.depth]
    have := (hleft k p hp).2 head hhead
    unfold saturatingAdd at this
    omega

/-! ### The calls on a window -/

/-- What a call leaves of a sound window: a sound one whose mark is not lower. -/
structure Keeps (w w' : ConfirmationWindow P) : Prop where
  sound : Sound w'
  flushed_le : ∀ f ∈ w.flushed, ∃ f' ∈ w'.flushed, f ≤ f'

omit [LawfulPosition P] in
theorem Sound.keeps {w : ConfirmationWindow P} (h : Sound w) : Keeps w w :=
  ⟨h, fun f hf => ⟨f, hf, Nat.le_refl _⟩⟩

omit [LawfulPosition P] in
/-- A halt drops the groups and leaves the mark. -/
theorem Sound.halted {w : ConfirmationWindow P} (h : Sound w) : Keeps w w.halted := by
  have hnone : ∀ (k : Nat) p, w.halted.pending[k]? ≠ some p := by
    intro k p
    simp [ConfirmationWindow.halted]
  refine ⟨⟨⟨w.dropped_halted, ?_, ?_, h.marked⟩, ?_, ?_⟩, h.keeps.flushed_le⟩ <;>
    exact fun k p hp => absurd hp (hnone k p)

/-- A flush after a change of the groups that leaves the mark alone. -/
theorem Kept.keeps {w w' : ConfirmationWindow P} (h : Kept w') (io : Io σ ρ P E)
    (hflushed : w'.flushed = w.flushed)
    (habove : ∀ (k : Nat) p, w'.pending[k]? = some p →
      (∀ head ∈ w'.head, head < saturatingAdd u64Max k w'.depth) → ∀ f ∈ w.flushed, f < k) :
    Keeps w (w'.flushMatured io).1 := by
  rw [← hflushed] at habove
  obtain ⟨bs, -, hflush⟩ := flushMatured_spec w' io h.captured
  refine ⟨h.flushMatured io habove, ?_⟩
  rw [← hflushed]
  exact hflush.flushed_le

variable [RecordOps ρ E] (hP : Position.reobservation P = .halt) {w : ConfirmationWindow P}

include hP in
theorem Sound.record (h : Sound w) (io : Io σ ρ P E) (position : P) (event : E) :
    Keeps w (w.record io position event).1 := by
  rcases record_cases hP w io position event with ⟨-, heq⟩ | ⟨-, -, heq⟩ |
    ⟨-, -, e, record, -, heq⟩ |
    ⟨hhealthy, hlt, row, schema, record, w', io', delivered, -, hacc, heq⟩ <;> rw [heq]
  · exact h.keeps
  · exact h.halted
  · exact h.halted
  · -- a group other than the event's own was there before
    have hother : ∀ (k : Nat) p, w'.pending[k]? = some p → k ≠ Position.sortKey position →
        Filed k p ∧ ∃ q, w.pending[k]? = some q := by
      intro k p hp hk
      rw [hacc.pending k, if_neg hk] at hp
      split at hp
      · exact ⟨Filed.rewind h.filed hp, pending_of_rewind hp⟩
      · exact ⟨h.filed k p hp, p, hp⟩
    have hkept : Kept w' := by
      refine ⟨dropped_of_healthy (by rw [hacc.core]; exact hhealthy), ?_, ?_, ?_⟩
      · intro k p hp
        by_cases hk : k = Position.sortKey position
        · rw [hacc.pending k, if_pos hk] at hp
          rw [← Option.some.inj hp, hk]
          exact Filed.accepted (filed_baseAt h.filed _)
        · exact (hother k p hp hk).1
      · intro k p _
        rw [hacc.core]
        rfl
      · show w'.flushed = w'.watermark.map Position.sortKey
        rw [hacc.flushed, hacc.watermark]
        exact h.marked
    have hflushed : w'.flushed = w.flushed := hacc.flushed
    apply hkept.keeps io' hflushed
    intro k p hp _ f hf
    by_cases hk : k = Position.sortKey position
    · rw [hk]
      exact hlt f hf
    · obtain ⟨-, q, hq⟩ := hother k p hp hk
      exact h.above k q hq f hf

omit [Store σ P] [RecordOps ρ E] [LawfulPosition P] in
include hP in
theorem Sound.retract (h : Sound w) (io : Io σ ρ P E) (position : P) :
    Keeps w (w.retract io position).1 := by
  rcases retract_cases hP w io position with ⟨-, heq⟩ | ⟨-, -, heq⟩ | ⟨hhealthy, -, heq⟩ <;>
    rw [heq]
  · exact h.keeps
  · exact h.halted
  · refine ⟨⟨⟨dropped_of_healthy hhealthy, ?_, ?_, h.marked⟩, ?_, ?_⟩, h.keeps.flushed_le⟩
    · exact fun k p hp => Filed.rewind h.filed hp
    · intro k p hp
      obtain ⟨q, hq⟩ := pending_of_rewind hp
      exact h.captured k q hq
    · intro k p hp f hf
      obtain ⟨q, hq⟩ := pending_of_rewind hp
      exact h.above k q hq f hf
    · -- the head only moves back
      intro k p hp head hhead
      obtain ⟨q, hq⟩ := pending_of_rewind hp
      obtain ⟨head', hhead', rfl⟩ := Option.map_eq_some_iff.mp hhead
      have : head' < k + w.depth := h.buried k q hq head' hhead'
      show min head' (Position.sortKey position - 1) < k + w.depth
      omega

omit [Store σ P] [RecordOps ρ E] in
theorem Sound.absorb (h : Sound w) {settled : Option P}
    (hle : ∀ p ∈ settled, ∃ f ∈ w.flushed, Position.sortKey p ≤ f) :
    Keeps w (w.absorb settled) := by
  refine ⟨⟨⟨?_, ?_, ?_, h.marked.absorb settled⟩, ?_, ?_⟩, fun f hf => absorb_flushed_le settled hf⟩
  · intro hw k
    rw [absorb_pending]
    exact h.dropped (by rwa [absorb_core] at hw) k
  · rw [absorb_pending]
    exact h.filed
  · rw [absorb_pending, absorb_core]
    exact h.captured
  · rw [absorb_pending]
    rcases settled with _ | p
    · exact h.above
    · intro k q hq f hf
      obtain ⟨f', hf', hp⟩ := hle p rfl
      have hfk := h.above k q hq f' hf'
      rw [Option.mem_def] at hf hf'
      simp only [ConfirmationWindow.absorb, hf', Option.elim_some, Option.some.injEq] at hf
      omega
  · rw [absorb_pending]
    rcases settled with _ | p <;> exact h.buried

/-! ### Seeding -/

/-- While the backfill tail is seeded, the mark is the one the window started with, or is buried
under the head. -/
def Seeding (seed : Option P) (w : ConfirmationWindow P) : Prop :=
  ∀ f ∈ w.flushed, f ∈ seed.map Position.sortKey ∨
    ∃ h ∈ w.head, saturatingAdd u64Max f w.depth ≤ h

omit [LawfulPosition P] [RecordOps ρ E] in
theorem Seeding.flushMatured {seed : Option P} (h : Seeding seed w) (io : Io σ ρ P E)
    (hcaptured : ∀ (k : Nat) p, w.pending[k]? = some p → w.core.schema.isSome) :
    Seeding seed (w.flushMatured io).1 := by
  obtain ⟨bs, hbs, hflush⟩ := flushMatured_spec w io hcaptured
  intro f hf
  rw [hflush.head, hflush.depth]
  rcases hflush.flushed f hf with hf | hf
  · exact h f hf
  · exact Or.inr (hbs f hf)

include hP in
/-- A backfill-tail event above the mark that the window started with keeps it sound. -/
theorem Sound.recordSeeded {seed : Option P} (h : Sound w) (hseeding : Seeding seed w)
    (io : Io σ ρ P E) (position : P) (event : E)
    (hseed : ∀ p ∈ seed, Position.sortKey p < Position.sortKey position) :
    Keeps w (w.recordSeeded io position event).1 ∧
      Seeding seed (w.recordSeeded io position event).1 := by
  rcases recordSeeded_cases hP w io position event with ⟨-, heq⟩ | ⟨-, _, -, -, heq⟩ |
    ⟨-, -, e, record, -, heq⟩ | ⟨hhealthy, hhead, row, schema, record, -, heq⟩ <;> rw [heq]
  · exact ⟨h.keeps, hseeding⟩
  · exact ⟨h.halted, hseeding⟩
  · exact ⟨h.halted, hseeding⟩
  · set key := Position.sortKey position with hkey
    set w' := ((w.withSchema schema).acceptSeeded ({ io with record } : Io σ ρ P E) position event
      row).1 with hw'
    have hpending : ∀ k, w'.pending[k]? = if k = key then
        some (seededGroup w.pending[key]? position row) else w.pending[k]? := fun k =>
      acceptSeeded_getElem? (w.withSchema schema) { io with record } position event row k
    have hhead' : w'.head = some key := by
      rw [hw', acceptSeeded_head]
      show some (w.head.elim key (max · key)) = some key
      rcases hw : w.head with _ | head
      · rfl
      · rw [Option.elim_some, Nat.max_eq_right (hhead head hw)]
    have hcaptured : ∀ (k : Nat) p, w'.pending[k]? = some p → w'.core.schema.isSome :=
      fun _ _ _ => rfl
    have hkept : Kept w' := by
      refine ⟨dropped_of_healthy hhealthy, fun k p hp => ?_, hcaptured, h.marked⟩
      rw [hpending] at hp
      split at hp
      case isTrue hk =>
        rw [← Option.some.inj hp, hk]
        exact Filed.seeded (h.filed key)
      case isFalse => exact h.filed k p hp
    have hseeding' : Seeding seed w' := by
      intro f hf
      refine (hseeding f hf).imp_right ?_
      rintro ⟨head, hm, hle⟩
      exact ⟨key, hhead', Nat.le_trans hle (hhead head hm)⟩
    refine ⟨hkept.keeps _ rfl fun k p hp hunripe f hf => ?_, hseeding'.flushMatured _ hcaptured⟩
    rw [hpending] at hp
    split at hp
    case isFalse => exact h.above k p hp f hf
    case isTrue hk =>
      -- the event's own group: what is buried under the head is below it if the group stays
      rw [hk] at hunripe ⊢
      rcases hseeding f hf with hf | ⟨head, hm, hle⟩
      · obtain ⟨p, hp, rfl⟩ := Option.map_eq_some_iff.mp hf
        exact hseed p hp
      · have hlt : key < saturatingAdd u64Max key w.depth := hunripe key hhead'
        have hheadle := hhead head hm
        unfold saturatingAdd at hle hlt
        omega

/-! ### Every order of calls -/

/-- The half of a subscription that a window serves. -/
inductive Phase where
  | backfill
  | live
  deriving DecidableEq

/-- One call on the window of a subscription, whatever the store and the record answer.  The
backfill tail is above the mark that the window started with, and the settled writer's watermark is
not above the window's. -/
inductive CallStep (σ ρ E : Type) [Store σ P] [RecordOps ρ E] (seed : Option P) :
    Phase × ConfirmationWindow P → Phase × ConfirmationWindow P → Prop
  | recordSeeded (w : ConfirmationWindow P) (io : Io σ ρ P E) (position : P) (event : E)
      (hseed : ∀ p ∈ seed, Position.sortKey p < Position.sortKey position) :
      CallStep σ ρ E seed (.backfill, w) (.backfill, (w.recordSeeded io position event).1)
  | absorb (w : ConfirmationWindow P) (settled : Option P)
      (hle : ∀ p ∈ settled, ∃ f ∈ w.flushed, Position.sortKey p ≤ f) :
      CallStep σ ρ E seed (.backfill, w) (.live, w.absorb settled)
  | record (w : ConfirmationWindow P) (io : Io σ ρ P E) (position : P) (event : E) :
      CallStep σ ρ E seed (.live, w) (.live, (w.record io position event).1)
  | retract (w : ConfirmationWindow P) (io : Io σ ρ P E) (position : P) :
      CallStep σ ρ E seed (.live, w) (.live, (w.retract io position).1)
  | halt (phase : Phase) (w : ConfirmationWindow P) (io : Io σ ρ P E) (reason : HaltReason P) :
      CallStep σ ρ E seed (phase, w) (.live, (w.halt io reason).1)

/-- The windows that an order of calls goes through. -/
abbrev CallRun (σ ρ E : Type) [Store σ P] [RecordOps ρ E] (seed : Option P) :
    Phase × ConfirmationWindow P → Phase × ConfirmationWindow P → Prop :=
  Relation.ReflTransGen (CallStep σ ρ E seed)

omit [LawfulPosition P] [Store σ P] in
theorem Sound.new (depth : Nat) (seed : Option P) : Sound (ConfirmationWindow.new depth seed) := by
  have hnone : ∀ (k : Nat) p, (ConfirmationWindow.new depth seed).pending[k]? ≠ some p := by
    intro k p
    simp [ConfirmationWindow.new]
  refine ⟨⟨dropped_of_healthy rfl, ?_, ?_, rfl⟩, ?_, ?_⟩ <;>
    exact fun k p hp => absurd hp (hnone k p)

/-- What holds between the calls. -/
structure Between (seed : Option P) (s : Phase × ConfirmationWindow P) : Prop where
  sound : Sound s.2
  seeding : s.1 = .backfill → Seeding seed s.2

include hP in
theorem Between.step {seed : Option P} {s s' : Phase × ConfirmationWindow P}
    (h : Between seed s) (hstep : CallStep σ ρ E seed s s') :
    Between seed s' ∧ Keeps s.2 s'.2 := by
  have hlive : ∀ w' : ConfirmationWindow P, Keeps s.2 w' →
      Between seed (.live, w') ∧ Keeps s.2 w' := fun w' hk => ⟨⟨hk.sound, nofun⟩, hk⟩
  cases hstep with
  | recordSeeded w io position event hseed =>
    obtain ⟨hk, hs⟩ := h.sound.recordSeeded hP (h.seeding rfl) io position event hseed
    exact ⟨⟨hk.sound, fun _ => hs⟩, hk⟩
  | absorb w settled hle => exact hlive _ (h.sound.absorb hle)
  | record w io position event => exact hlive _ (h.sound.record hP io position event)
  | retract w io position => exact hlive _ (h.sound.retract hP io position)
  | halt phase w io reason => exact hlive _ h.sound.halted

include hP in
theorem Between.run {seed : Option P} {s s' : Phase × ConfirmationWindow P}
    (h : Between seed s) (hrun : CallRun σ ρ E seed s s') : Between seed s' ∧ Keeps s.2 s'.2 := by
  induction hrun with
  | refl => exact ⟨h, h.sound.keeps⟩
  | tail _ hstep ih =>
    obtain ⟨hmid, hk⟩ := ih
    obtain ⟨h', hk'⟩ := hmid.step hP hstep
    refine ⟨h', hk'.sound, fun f hf => ?_⟩
    obtain ⟨f', hf', hle⟩ := hk.flushed_le f hf
    obtain ⟨f'', hf'', hle'⟩ := hk'.flushed_le f' hf'
    exact ⟨f'', hf'', Nat.le_trans hle hle'⟩

/-- After every order of calls the window is sound: a halted one has no groups; each group is above
the mark, not buried, and at its own sort key; a seeded one expects nothing; and the mark, which
never decreases, is the sort key of the watermark. -/
theorem window_sound (hP : Position.reobservation P = .halt) {depth : Nat} {seed : Option P}
    {s s' : Phase × ConfirmationWindow P}
    (hrun : CallRun σ ρ E seed (.backfill, ConfirmationWindow.new depth seed) s)
    (hrun' : CallRun σ ρ E seed s s') :
    Sound s'.2 ∧ ∀ f ∈ s.2.flushed, ∃ f' ∈ s'.2.flushed, f ≤ f' := by
  have hnew : Between seed (Phase.backfill, ConfirmationWindow.new depth seed) :=
    ⟨Sound.new depth seed, fun _ f hf => Or.inl hf⟩
  obtain ⟨hmid, -⟩ := hnew.run hP hrun
  obtain ⟨h', hk⟩ := hmid.run hP hrun'
  exact ⟨h'.sound, hk.flushed_le⟩

/-- A window that starts from block 3 and holds the event of block 10 from the backfill. -/
def absorbedWindow : ConfirmationWindow BlockPosition :=
  ((ConfirmationWindow.new 2 (some ⟨3⟩)).recordSeeded retractIo ⟨10⟩ (⟨7⟩ : ValueSet)).1.absorb
    (some ⟨3⟩)

/-- A live event of block 12 writes block 10. -/
theorem window_sound_flushed :
    (absorbedWindow.record retractIo ⟨12⟩ (⟨8⟩ : ValueSet)).1.flushed = some 10 ∧
      Sound (absorbedWindow.record retractIo ⟨12⟩ (⟨8⟩ : ValueSet)).1 ∧
      ∀ f ∈ absorbedWindow.flushed,
        ∃ f' ∈ (absorbedWindow.record retractIo ⟨12⟩ (⟨8⟩ : ValueSet)).1.flushed, f ≤ f' := by
  have hseeded : CallRun (MemoryStore BlockPosition) Record ValueSet (some ⟨3⟩)
      (.backfill, ConfirmationWindow.new 2 (some ⟨3⟩)) (.live, absorbedWindow) := by
    refine .tail (.single (.recordSeeded _ retractIo ⟨10⟩ (⟨7⟩ : ValueSet) ?_))
      (.absorb _ (some (⟨3⟩ : BlockPosition)) ?_)
    · decide
    · decide +kernel
  have hlive : CallRun (MemoryStore BlockPosition) Record ValueSet (some ⟨3⟩)
      (.live, absorbedWindow)
      (.live, (absorbedWindow.record retractIo ⟨12⟩ (⟨8⟩ : ValueSet)).1) :=
    .single (.record _ retractIo ⟨12⟩ (⟨8⟩ : ValueSet))
  exact ⟨by decide +kernel, window_sound rfl hseeded hlive⟩

end ConfirmationWindow

end ArtemisLight
