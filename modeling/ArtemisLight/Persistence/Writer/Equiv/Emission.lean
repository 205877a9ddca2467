import ArtemisLight.Persistence.Writer.Equiv.Encoded
import ArtemisLight.Persistence.Writer.Equiv.Healthy

/-!
# Blocks and retractions

What healthy writers make of the events of one block above the flushed mark (`Emitted`), and of a
batch of retractions above it (`Withdrawn`).  Neither touches what lies at or below the mark, so a
written group stays what is held at its height (`Sealed`).
-/

namespace ArtemisLight

open ConfirmationWindow

variable {σ ρ E : Type}

/-! ### What is written stays -/

/-- Every written group is what is held at its height, and the flushed mark is the one the window
started with or the height of a written group.  Below `lo`, where the backfill delivers nothing, no
group is empty. -/
structure Sealed (lo : Nat) (mark : Option Nat) (w : ConfirmationWindow BlockPosition)
    (effects : List (Effect BlockPosition E)) : Prop where
  rows : ∀ g ∈ writes effects, g.2 = heldRows effects g.1.block
  written : ∀ g ∈ writes effects, lo ≤ g.1.block ∨ g.2 ≠ []
  pending : ∀ (k : Nat) p, w.pending[k]? = some p → lo ≤ k ∨ p.seeded = false ∧ p.rows ≠ []
  flushed : ∀ f ∈ w.flushed, f ∈ mark ∨ ∃ g ∈ writes effects, g.1.block = f
  mark_le : ∀ m ∈ mark, ∃ f ∈ w.flushed, m ≤ f

/-- Healthy writers, between two live items. -/
structure Upkeep (W : σ → Prop) (R : ρ → Prop) (depth lo : Nat) (seed : Option BlockPosition)
    (mark : Option Nat) (s : Pipeline σ ρ BlockPosition E) : Prop where
  steady : Steady W R depth s
  live : LiveInv seed s
  sealed : Sealed lo mark s.window s.io.effects

/-- What the events of a block leave: nothing is held above its height that a rewind would have to
drop, its own group starts afresh after a rewind or on the first contact with the backfill's copy,
and below it groups are flushed at most. -/
structure Emitted (key : Nat) (events : List E) (s t : Pipeline σ ρ BlockPosition E) : Prop where
  below : ∀ k < key, held t.io.effects k = held s.io.effects k
  at_key : heldEvents t.io.effects key
    = (if s.window.reorgAt key || s.window.seededAt key then [] else heldEvents s.io.effects key)
      ++ events
  above : ∀ k, key < k → heldEvents t.io.effects k
    = if s.window.reorgAt key then [] else heldEvents s.io.effects k
  seeded : ∀ k, t.window.seededAt k = true →
    s.window.seededAt k = true ∧ k ≠ key ∧ (key < k → s.window.reorgAt key = false)
  kept : ∀ k < key, (∀ f ∈ t.window.flushed, f < k) → t.window.seededAt k = s.window.seededAt k
  head : t.window.head = some key
  flushed : ∀ f ∈ t.window.flushed, f ∈ s.window.flushed ∨ f < key
  flushed_le : ∀ f ∈ s.window.flushed, ∃ f' ∈ t.window.flushed, f ≤ f'

/-- What retractions at the heights `keys` leave: nothing at or above the lowest of them. -/
structure Withdrawn (keys : List Nat) (s t : Pipeline σ ρ BlockPosition E) : Prop where
  reached : ∀ k, ∀ key ∈ keys, key ≤ k →
    heldEvents t.io.effects k = [] ∧ t.window.seededAt k = false
  others : ∀ k, (∀ key ∈ keys, k < key) → held t.io.effects k = held s.io.effects k ∧
    t.window.seededAt k = s.window.seededAt k
  head : ∀ k, (∀ key ∈ keys, k < key) → (∃ h ∈ s.window.head, k ≤ h) →
    ∃ h ∈ t.window.head, k ≤ h
  flushed : t.window.flushed = s.window.flushed
  writes : writes t.io.effects = writes s.io.effects

/-! ### The flushed mark -/

section Marks

variable [Store σ BlockPosition]

/-- The flush loop moves the mark to the heights of the groups it writes. -/
theorem flushLoop_marks {w : ConfirmationWindow BlockPosition} {io : Io σ ρ BlockPosition E}
    {schema : TableSchema} (hs : w.core.schema = some schema)
    (hpos : ∀ (k : Nat) p, w.pending[k]? = some p → p.position = ⟨k⟩) (bs : List Nat) :
    ∀ f ∈ (w.flushLoop io bs).1.flushed,
      f ∈ w.flushed ∨ ∃ g ∈ writes (w.flushLoop io bs).2.effects, g.1.block = f := by
  refine flushLoop_rule (fun w' (io' : Io σ ρ BlockPosition E) _ =>
      (∀ (k : Nat) p, w'.pending[k]? = some p → p.position = ⟨k⟩) ∧
        ∀ f ∈ w'.flushed, f ∈ w.flushed ∨ ∃ g ∈ writes io'.effects, g.1.block = f)
    (fun w' (io' : Io σ ρ BlockPosition E) =>
      ∀ f ∈ w'.flushed, f ∈ w.flushed ∨ ∃ g ∈ writes io'.effects, g.1.block = f)
    (fun w' io' b bs _ h => h) (fun w' io' b bs p store hp h _ => ?_)
    (fun w' io' b bs p e store _ h _ => ?_) (fun w' io' h => h.2) bs w io hs
    ⟨hpos, fun f hf => Or.inl hf⟩
  · obtain ⟨hpos', hfl⟩ := h
    refine ⟨fun k q hq => hpos' k q (finalize_getElem? k hq), fun f hf => ?_⟩
    have hb : p.position = ⟨b⟩ := hpos' b p hp
    have hnew : (⟨b⟩, p.rows) ∈ writes (io'.effects
        ++ [.wrote w'.core.writer p.position p.rows]) := by
      rw [hb, writes_append]
      exact List.mem_append_right _ (by simp [writes, Effect.wrote?])
    have hold : ∀ g ∈ writes io'.effects, g ∈ writes (io'.effects
        ++ [.wrote w'.core.writer p.position p.rows]) := fun g hg => by
      rw [writes_append]
      exact List.mem_append_left _ hg
    -- the mark is the higher one of the old mark and the written height
    have hcases : f ∈ w'.flushed ∨ f = b := by
      rw [finalize, Option.mem_def, Option.some.injEq] at hf
      rcases hw : w'.flushed with _ | g
      · rw [hw] at hf
        exact Or.inr hf.symm
      · rw [hw, Option.elim_some] at hf
        rw [Option.mem_def, Option.some.injEq]
        omega
    rcases hcases with hf | rfl
    · refine (hfl f hf).imp_right ?_
      rintro ⟨g, hg, hgf⟩
      exact ⟨g, hold g hg, hgf⟩
    · exact Or.inr ⟨_, hnew, rfl⟩
  · intro f hf
    refine (h.2 f hf).imp_right ?_
    rintro ⟨g, hg, hgf⟩
    refine ⟨g, ?_, hgf⟩
    rw [Io.emit_effects, writes_append]
    exact List.mem_append_left _ hg

/-- A live event moves the mark to the heights of the groups it has written. -/
theorem liveStep_marks [RecordOps ρ E] {seed : Option BlockPosition}
    {s : Pipeline σ ρ BlockPosition E} (hlive : LiveInv seed s)
    (hh : s.window.core.healthy = true) (position : BlockPosition) (event : E) :
    ∀ f ∈ (s.liveStep (.event position event)).window.flushed, f ∈ s.window.flushed ∨
      ∃ g ∈ writes (s.liveStep (.event position event)).io.effects, g.1.block = f := by
  intro f hf
  rw [Pipeline.liveStep_event] at hf ⊢
  simp only [Io.deliver, Io.emit_effects, writes_append] at hf ⊢
  rcases s.window.record_cases rfl s.io position event with
    ⟨-, he⟩ | ⟨-, -, he⟩ | ⟨-, -, e, record, -, he⟩ |
    ⟨-, habove, row, schema, record, w', io', d, -, ha, he⟩
  · rw [he] at hf
    exact Or.inl hf
  · rw [he] at hf
    exact Or.inl hf
  · rw [he] at hf
    exact Or.inl hf
  · rw [he] at hf ⊢
    have hok : LiveOk seed w' io'.effects :=
      LiveOk.accepted ha ((hlive.2 hh).withSchema schema) habove rfl
    have hschema : w'.core.schema = some schema := by rw [ha.core]; rfl
    have hmarks : ∀ f ∈ (w'.flushLoop io' (w'.matured position.block)).1.flushed, _ :=
      flushLoop_marks hschema (fun k p hp => (hok.buffered.above k p hp).2) _
    have hflush : w'.flushMatured io' = w'.flushLoop io' (w'.matured position.block) := by
      unfold flushMatured
      rw [ha.head]
      rfl
    rw [hflush] at hf ⊢
    rcases hmarks f hf with hold | ⟨g, hg, hgf⟩
    · rw [ha.flushed] at hold
      exact Or.inl hold
    · exact Or.inr ⟨g, List.mem_append_left _ hg, hgf⟩

end Marks

/-! ### One live item -/

section Item

variable [Store σ BlockPosition] [RecordOps ρ E] {W : σ → Prop} {R : ρ → Prop} {D : E → Prop}
  {depth lo : Nat} {seed : Option BlockPosition} {mark : Option Nat}
  {s t u : Pipeline σ ρ BlockPosition E}

/-- One live event above the flushed mark. -/
theorem Upkeep.emitted (hW : Reliable BlockPosition W) (hR : Encodes D R) (hdepth : 0 < depth)
    (h : Upkeep W R depth lo seed mark s) {key : Nat} {event : E} (he : D event)
    (hf : ∀ f ∈ s.window.flushed, f < key) (hmax : key < u64Max) :
    Emitted key [event] s (s.liveStep (.event ⟨key⟩ event)) := by
  have hfkey : ∀ f ∈ s.window.flushed, f < (⟨key⟩ : BlockPosition).block := hf
  obtain ⟨row, schema, record, w', io', d, bs, io'', -, ha, hok, hbs, hfl, hio⟩ :=
    h.steady.accepted hW hR hdepth h.live he hfkey hmax
  have hhealthy := (h.steady.event hW hR he hfkey).1.window
  have hheld : held (s.liveStep (.event ⟨key⟩ event)).io.effects = held io'.effects := by
    obtain ⟨fl, hfe, hx⟩ := hfl.effects
    rw [hio, held_deliver, hfe]
    refine held_append_of_quiet _ fun x hxm => ?_
    rcases hx x hxm with ⟨b, -, p, -, rfl⟩ | ⟨e, rfl⟩ <;> trivial
  have hseed := ha.seededAt
  have hacc := ha.held
  have hreorg : (s.window.withSchema schema).reorgAt key = s.window.reorgAt key := rfl
  have hsd : ∀ k, (s.window.withSchema schema).seededAt k = s.window.seededAt k := fun _ => rfl
  simp only [BlockPosition.sortKey_eq, hreorg, hsd] at hseed hacc
  refine ⟨fun k hk => ?_, ?_, fun k hk => ?_, fun k hk => ?_, fun k hk hkf => ?_, ?_,
    fun f hfm => ?_, fun f hfm => ?_⟩
  · rw [hheld, hacc, if_neg (by omega), if_neg (by omega)]
  · rw [heldEvents, hheld, hacc, if_pos rfl, List.map_append]
    split <;> rfl
  · rw [heldEvents, hheld, hacc, if_neg (by omega)]
    cases s.window.reorgAt key <;> simp [Nat.le_of_lt hk]
  · rw [hfl.seededAt hhealthy, hseed] at hk
    simp only [Bool.and_eq_true, decide_eq_true_eq, Bool.not_eq_true', Bool.and_eq_false_iff,
      decide_eq_false_iff_not] at hk
    obtain ⟨-, ⟨hne, hrew⟩, hs⟩ := hk
    exact ⟨hs, hne, fun hlt => hrew.resolve_right fun hle => hle (Nat.le_of_lt hlt)⟩
  · have hseeded : w'.seededAt k = s.window.seededAt k := by
      rw [hseed]
      simp [Nat.ne_of_lt hk, Nat.not_le_of_lt hk]
    rw [hfl.seededAt hhealthy, hseeded]
    cases hsk : s.window.seededAt k with
    | false => exact Bool.and_false _
    | true =>
      -- a group that is flushed lies at or below the mark
      obtain ⟨p, hp, -⟩ := pending_of_seededAt (hseeded.trans hsk)
      rw [Bool.and_true, decide_eq_true_eq]
      intro hkb
      obtain ⟨f, hfm, hle⟩ := hfl.above hhealthy k hkb p hp
      exact absurd (hkf f hfm) (Nat.not_lt_of_le hle)
  · rw [hfl.head, ha.head]
    rfl
  · refine (hfl.flushed f hfm).imp (fun hold => ?_) (hbs f)
    rw [ha.flushed] at hold
    exact hold
  · exact hfl.flushed_le f (by rw [ha.flushed]; exact hfm)

omit [Store σ BlockPosition] [RecordOps ρ E] in
/-- The groups a live event leaves are those of before, and its own. -/
theorem Sealed.accepted {w w' : ConfirmationWindow BlockPosition} {io io' : Io σ ρ BlockPosition E}
    {effects : List (Effect BlockPosition E)} (h : Sealed lo mark w effects)
    {position : BlockPosition} {event : E} {row : Row} {delivered : Bool}
    (ha : Accepted w io position event row w' io' delivered) {k : Nat} {p : Pending BlockPosition}
    (hp : w'.pending[k]? = some p) : lo ≤ k ∨ p.seeded = false ∧ p.rows ≠ [] := by
  rw [ha.pending] at hp
  split at hp
  · obtain rfl := Option.some.inj hp
    rename_i hk
    refine (Nat.lt_or_ge k lo).symm.imp id fun hlt => ?_
    rcases hb : w.baseAt (Position.sortKey position) with _ | q
    · exact ⟨rfl, List.cons_ne_nil _ _⟩
    · refine ⟨?_, List.append_ne_nil_of_right_ne_nil _ (List.cons_ne_nil _ _)⟩
      -- below `lo` the group was not the backfill's
      rw [baseAt] at hb
      obtain ⟨q', hq', hb⟩ := Option.bind_eq_some_iff.mp hb
      have hs := ((h.pending _ q' hq').resolve_left (by omega)).1
      rw [hs, if_neg (by simp)] at hb
      split at hb
      · exact absurd hb (by simp)
      · rw [← Option.some.inj hb]
        exact hs
  · split at hp
    · rw [getElem?_rewind] at hp
      obtain ⟨q, hq, hp⟩ := Option.bind_eq_some_iff.mp hp
      refine (h.pending k q hq).imp id fun hlow => ?_
      split at hp
      · rw [hlow.1, if_neg (by simp)] at hp
        exact absurd hp (by simp)
      · rw [← Option.some.inj hp]
        exact hlow
    · exact h.pending k p hp

theorem Sealed.withSchema {w : ConfirmationWindow BlockPosition}
    {effects : List (Effect BlockPosition E)} (h : Sealed lo mark w effects)
    (schema : TableSchema) : Sealed lo mark (w.withSchema schema) effects :=
  ⟨h.rows, h.written, h.pending, h.flushed, h.mark_le⟩

theorem Upkeep.event (hW : Reliable BlockPosition W) (hR : Encodes D R) (hdepth : 0 < depth)
    (h : Upkeep W R depth lo seed mark s) {key : Nat} {event : E} (he : D event)
    (hf : ∀ f ∈ s.window.flushed, f < key) (hmax : key < u64Max) :
    Upkeep W R depth lo seed mark (s.liveStep (.event ⟨key⟩ event)) := by
  have hemit := h.emitted hW hR hdepth he hf hmax
  have hfkey : ∀ f ∈ s.window.flushed, f < (⟨key⟩ : BlockPosition).block := hf
  obtain ⟨row, schema, record, w', io', d, bs, io'', -, ha, hok, hbs, hfl, hio⟩ :=
    h.steady.accepted hW hR hdepth h.live he hfkey hmax
  have hsteady := (h.steady.event hW hR he hfkey).1
  obtain ⟨fl, hfe, hx⟩ := hfl.effects
  have hquiet : ∀ x ∈ fl, x.Quiet := by
    intro x hxm
    rcases hx x hxm with ⟨b, -, p, -, rfl⟩ | ⟨e, rfl⟩ <;> trivial
  have hheld : held (s.liveStep (.event ⟨key⟩ event)).io.effects = held io'.effects := by
    rw [hio, held_deliver, hfe]
    exact held_append_of_quiet _ hquiet
  -- a written group is an old one or one that was pending
  have hwritten : ∀ g ∈ writes (s.liveStep (.event ⟨key⟩ event)).io.effects,
      g ∈ writes s.io.effects ∨
        ∃ b, ∃ p, w'.pending[b]? = some p ∧ g = (⟨b⟩, p.rows) := by
    intro g hg
    rw [hio, Io.deliver, Io.emit_effects, writes_append, List.mem_append] at hg
    rcases hg with hg | hg
    · rw [hfe, writes_append, List.mem_append] at hg
      rcases hg with hg | hg
      · refine Or.inl ?_
        rw [ha.effects, List.append_assoc, writes_append, List.mem_append] at hg
        refine hg.resolve_right fun hg => ?_
        obtain ⟨w, hm⟩ := mem_writes.mp hg
        rw [List.mem_append, List.mem_singleton] at hm
        rcases hm with hm | hm
        · split at hm
          · exact absurd hm (by simp)
          · split at hm <;> exact absurd hm (by simp)
        · exact absurd hm (by simp)
      · obtain ⟨w, hm⟩ := mem_writes.mp hg
        rcases hx _ hm with ⟨b, -, p, hp, heq⟩ | ⟨e, heq⟩
        · rw [(hok.buffered.above b p hp).2] at heq
          obtain ⟨-, hpos, hrows⟩ := Effect.wrote.inj heq
          exact Or.inr ⟨b, p, hp, Prod.ext hpos hrows⟩
        · exact absurd heq (by simp)
    · refine absurd hg ?_
      cases d <;> simp [writes, Effect.wrote?]
  refine ⟨hsteady, h.live.liveStep _, fun g hg => ?_, fun g hg => ?_, fun k p hp => ?_,
    fun f hfm => ?_, fun m hm => ?_⟩
  · rcases hwritten g hg with hg | ⟨b, p, hp, rfl⟩
    · obtain ⟨f, hfm, hle⟩ := (h.live.2 h.steady.window).written g hg
      have := hf f hfm
      rw [heldRows, hemit.below _ (by omega)]
      exact h.sealed.rows g hg
    · show p.rows = heldRows _ b
      rw [heldRows, hheld]
      exact hok.buffered.rows_of_pending hp
  · rcases hwritten g hg with hg | ⟨b, p, hp, rfl⟩
    · exact h.sealed.written g hg
    · exact ((h.sealed.withSchema schema).accepted ha hp).imp id And.right
  · rw [(hfl.pending hsteady.window).2] at hp
    split at hp
    · exact absurd hp (by simp)
    · exact (h.sealed.withSchema schema).accepted ha hp
  · rcases liveStep_marks h.live h.steady.window ⟨key⟩ event f hfm with hfm | hg
    · refine (h.sealed.flushed f hfm).imp_right ?_
      rintro ⟨g, hg, hgf⟩
      refine ⟨g, ?_, hgf⟩
      obtain ⟨tail, htail⟩ := prefix_liveStep s (.event ⟨key⟩ event)
      rw [← htail, writes_append]
      exact List.mem_append_left _ hg
    · exact Or.inr hg
  · obtain ⟨f, hfm, hle⟩ := h.sealed.mark_le m hm
    obtain ⟨f', hfm', hle'⟩ := hemit.flushed_le f hfm
    exact ⟨f', hfm', Nat.le_trans hle hle'⟩

/-- One retraction above the flushed mark. -/
theorem Upkeep.retract (h : Upkeep W R depth lo seed mark s) {key : Nat}
    (hf : ∀ f ∈ s.window.flushed, f < key) :
    Upkeep W R depth lo seed mark (s.liveStep (.retract ⟨key⟩)) ∧
      Withdrawn [key] s (s.liveStep (.retract ⟨key⟩)) := by
  have hfkey : ∀ f ∈ s.window.flushed, f < (⟨key⟩ : BlockPosition).block := hf
  obtain ⟨hsteady, hflushed⟩ := h.steady.retract hfkey
  have hlive := h.live.liveStep (.retract ⟨key⟩)
  rw [Pipeline.liveStep_retract] at hsteady hflushed hlive ⊢
  -- a retraction above the flushed mark does not halt the window
  rcases s.window.retract_cases rfl s.io ⟨key⟩ with ⟨hu, -⟩ | ⟨-, ⟨f, hfm, hle⟩, -⟩ | ⟨-, -, he⟩
  · exact absurd hu (by simp [h.steady.window])
  · exact absurd (hf f hfm) (Nat.not_lt_of_le hle)
  · simp only [he, BlockPosition.sortKey_eq] at hsteady hflushed hlive ⊢
    have hw : writes (s.io.effects ++ [.rewound key]) = writes s.io.effects := by
      rw [writes_append]
      exact List.append_nil _
    have hseeded := seededAt_rewind s.window key
    refine ⟨⟨hsteady, hlive, ?_⟩, fun k x hx hk => ?_, fun k hk => ?_, fun k hk hh => ?_, rfl, hw⟩
    · -- the groups written are at or below the mark, so the rewind does not reach them
      refine ⟨fun g hg => ?_, fun g hg => ?_, fun k p hp => ?_, fun f hfm => ?_,
        h.sealed.mark_le⟩
      · simp only [Io.emit_effects, hw] at hg ⊢
        obtain ⟨f, hfm, hle⟩ := (h.live.2 h.steady.window).written g hg
        have := hf f hfm
        rw [heldRows, held_concat_rewound, if_neg (by omega)]
        exact h.sealed.rows g hg
      · simp only [Io.emit_effects, hw] at hg
        exact h.sealed.written g hg
      · rw [getElem?_rewind] at hp
        obtain ⟨q, hq, hp⟩ := Option.bind_eq_some_iff.mp hp
        refine (h.sealed.pending k q hq).imp id fun hlow => ?_
        split at hp
        · rw [hlow.1, if_neg (by simp)] at hp
          exact absurd hp (by simp)
        · rw [← Option.some.inj hp]
          exact hlow
      · simp only [Io.emit_effects, hw]
        exact h.sealed.flushed f hfm
    · rw [List.mem_singleton] at hx
      subst hx
      rw [heldEvents, Io.emit_effects, held_concat_rewound, if_pos hk]
      refine ⟨rfl, (hseeded k).trans ?_⟩
      rw [decide_eq_false (Nat.not_lt_of_le hk)]
      rfl
    · have hlt : k < key := hk key (List.mem_singleton_self key)
      rw [Io.emit_effects, held_concat_rewound, if_neg (Nat.not_le_of_lt hlt)]
      refine ⟨rfl, (hseeded k).trans ?_⟩
      rw [decide_eq_true hlt]
      rfl
    · obtain ⟨b, hb, hkb⟩ := hh
      have hlt : k < key := hk key (List.mem_singleton_self key)
      refine ⟨min b (key - 1), ?_, by omega⟩
      rw [Option.mem_def.mp hb]
      rfl

omit [Store σ BlockPosition] [RecordOps ρ E] in
/-- More events of the same block. -/
theorem Emitted.trans {key : Nat} {events events' : List E} (h : Emitted key events s t)
    (h' : Emitted key events' t u) : Emitted key (events ++ events') s u := by
  have hreorg : t.window.reorgAt key = false := by simp [reorgAt, h.head]
  have hseeded : t.window.seededAt key = false :=
    Bool.eq_false_iff.mpr fun hk => (h.seeded key hk).2.1 rfl
  refine ⟨fun k hk => (h'.below k hk).trans (h.below k hk), ?_, fun k hk => ?_, fun k hk => ?_,
    fun k hk hkf => ?_, h'.head, fun f hf => ?_, fun f hf => ?_⟩
  · rw [h'.at_key, hreorg, hseeded, h.at_key, ← List.append_assoc]
    rfl
  · rw [h'.above k hk, hreorg, h.above k hk]
    rfl
  · exact h.seeded k (h'.seeded k hk).1
  · refine (h'.kept k hk hkf).trans (h.kept k hk fun f hf => ?_)
    obtain ⟨f', hf', hle⟩ := h'.flushed_le f hf
    exact Nat.lt_of_le_of_lt hle (hkf f' hf')
  · exact (h'.flushed f hf).elim (h.flushed f) Or.inr
  · obtain ⟨f', hf', hle⟩ := h.flushed_le f hf
    obtain ⟨f'', hf'', hle'⟩ := h'.flushed_le f' hf'
    exact ⟨f'', hf'', Nat.le_trans hle hle'⟩

/-- The events of a block above the flushed mark. -/
theorem Upkeep.block (hW : Reliable BlockPosition W) (hR : Encodes D R) (hdepth : 0 < depth)
    (h : Upkeep W R depth lo seed mark s) {key : Nat} {events : List E} (hne : events ≠ [])
    (hD : ∀ e ∈ events, D e) (hf : ∀ f ∈ s.window.flushed, f < key) (hmax : key < u64Max) :
    Upkeep W R depth lo seed mark
        ((asLive (events.map fun e => (⟨key⟩, e))).foldl Pipeline.liveStep s) ∧
      Emitted key events s
        ((asLive (events.map fun e => (⟨key⟩, e))).foldl Pipeline.liveStep s) := by
  induction events generalizing s with
  | nil => exact absurd rfl hne
  | cons e events ih =>
    have hstep := h.event hW hR hdepth (hD e List.mem_cons_self) hf hmax
    have hemit := h.emitted hW hR hdepth (hD e List.mem_cons_self) hf hmax
    rcases events with _ | ⟨e', events⟩
    · exact ⟨hstep, hemit⟩
    · obtain ⟨hkeep, hrest⟩ := ih hstep (List.cons_ne_nil _ _)
        (fun e'' he => hD e'' (List.mem_cons_of_mem _ he))
        fun f hfm => (hemit.flushed f hfm).elim (hf f) id
      exact ⟨hkeep, hemit.trans hrest⟩

omit [Store σ BlockPosition] [RecordOps ρ E] in
theorem Withdrawn.refl (s : Pipeline σ ρ BlockPosition E) : Withdrawn [] s s :=
  ⟨fun _ _ hk => absurd hk (by simp), fun _ _ => ⟨rfl, rfl⟩, fun _ _ hh => hh, rfl, rfl⟩

omit [Store σ BlockPosition] [RecordOps ρ E] in
theorem Withdrawn.trans {key : Nat} {keys : List Nat} (h : Withdrawn [key] s t)
    (h' : Withdrawn keys t u) : Withdrawn (key :: keys) s u := by
  refine ⟨fun k x hx hle => ?_, fun k hk => ?_, fun k hk hh => ?_, h'.flushed.trans h.flushed,
    h'.writes.trans h.writes⟩
  · by_cases hreach : ∃ y ∈ keys, y ≤ k
    · obtain ⟨y, hy, hyk⟩ := hreach
      exact h'.reached k y hy hyk
    · -- only the first retraction reaches the height
      have hothers := h'.others k fun y hy => Nat.lt_of_not_le fun hyk => hreach ⟨y, hy, hyk⟩
      obtain rfl : x = key := (List.mem_cons.mp hx).resolve_right fun hy => hreach ⟨x, hy, hle⟩
      obtain ⟨hheld, hseeded⟩ := h.reached k x (List.mem_singleton_self x) hle
      rw [heldEvents, hothers.1, hothers.2]
      exact ⟨hheld, hseeded⟩
  · have hkey := h.others k fun y hy => hk y (by simp_all)
    have hkeys := h'.others k fun y hy => hk y (List.mem_cons_of_mem _ hy)
    exact ⟨hkeys.1.trans hkey.1, hkeys.2.trans hkey.2⟩
  · exact h'.head k (fun y hy => hk y (List.mem_cons_of_mem _ hy))
      (h.head k (fun y hy => hk y (by simp_all)) hh)

/-- A batch of retractions above the flushed mark. -/
theorem Upkeep.retractions (h : Upkeep W R depth lo seed mark s) {keys : List Nat}
    (hf : ∀ key ∈ keys, ∀ f ∈ s.window.flushed, f < key) :
    Upkeep W R depth lo seed mark
        ((keys.map fun k => (.retract ⟨k⟩ : Indexed BlockPosition E)).foldl Pipeline.liveStep s) ∧
      Withdrawn keys s ((keys.map fun k => (.retract ⟨k⟩ : Indexed BlockPosition E)).foldl
        Pipeline.liveStep s) := by
  induction keys generalizing s with
  | nil => exact ⟨h, .refl s⟩
  | cons key keys ih =>
    obtain ⟨hstep, hout⟩ := h.retract (hf key List.mem_cons_self)
    obtain ⟨hkeep, hrest⟩ := ih hstep fun y hy => by
      rw [hout.flushed]
      exact hf y (List.mem_cons_of_mem _ hy)
    exact ⟨hkeep, hout.trans hrest⟩

end Item

/-! ### The seam -/

/-- Rows are determined by the events they encode. -/
theorem Encoded.heldRows_congr [RecordOps ρ E] {io : Io σ ρ BlockPosition E} (h : Encoded io)
    {l l' : List (Effect BlockPosition E)} (hl : l <+: io.effects) (hl' : l' <+: io.effects)
    {k : Nat} (heq : heldEvents l k = heldEvents l' k) : heldRows l k = heldRows l' k := by
  let row : E → Row := fun e => (RecordOps.encode io.record e).1.toOption.getD ⟨[]⟩
  have hrows : ∀ l : List (Effect BlockPosition E), l <+: io.effects →
      heldRows l k = (heldEvents l k).map row := by
    intro l hl
    rw [List.map_map]
    refine List.map_congr_left fun x hx => ?_
    show x.2 = row x.1
    simp only [row]
    rw [h.held hl hx]
    rfl
  rw [hrows l hl, hrows l' hl', heq]

section Seam

variable [Store σ BlockPosition] [RecordOps ρ E] {W : σ → Prop} {R : ρ → Prop} {D : E → Prop}
  {depth lo tip : Nat} {seed : Option BlockPosition} {cut : Option Nat}

/-- What the backfill leaves for the live stream. -/
structure Seeded (mark : Option Nat) (backfill : List (BlockPosition × E))
    (s : Pipeline σ ρ BlockPosition E) : Prop where
  held : ∀ k, heldEvents s.io.effects k = eventsAt backfill k
  unfilled : ∀ k, (∀ f ∈ s.window.flushed, f < k) → eventsAt backfill k ≠ [] →
    s.window.seededAt k = true
  seeded : ∀ k, s.window.seededAt k = true →
    eventsAt backfill k ≠ [] ∧ ∃ h ∈ s.window.head, k ≤ h
  flushed : ∀ f ∈ s.window.flushed, f ∈ mark

/-- The groups of the window are those of the backfill's events. -/
theorem pending_backfillStep {done : List (BlockPosition × E)}
    {item : BlockPosition × E} {s : Pipeline σ ρ BlockPosition E}
    (hinv : BackfillInv seed cut tip depth s)
    (hbury : ∀ k, (∀ c ∈ cut, c < k) → k ≤ tip → tip < saturatingAdd u64Max k depth)
    (htip : item.1.block ≤ tip)
    (h : ∀ (k : Nat) p, s.window.pending[k]? = some p → eventsAt done k ≠ []) :
    ∀ (k : Nat) p, (s.backfillStep cut item).window.pending[k]? = some p →
      eventsAt (done ++ [item]) k ≠ [] := by
  obtain ⟨position, event⟩ := item
  have hold : ∀ (k : Nat) p, s.window.pending[k]? = some p →
      eventsAt (done ++ [(position, event)]) k ≠ [] := by
    intro k p hp hnil
    rw [eventsAt_append] at hnil
    exact h k p hp (List.append_eq_nil_iff.mp hnil).1
  -- an event at or below the cut does not reach the window
  by_cases hc : ∃ c ∈ cut, position.block ≤ c
  · obtain ⟨c, hc, hle⟩ := hc
    rw [s.backfillStep_of_le event hc hle]
    exact hold
  · have hlt : ∀ c ∈ cut, c < position.block := fun c hcm =>
      Nat.lt_of_not_le fun hle => hc ⟨c, hcm, hle⟩
    rw [s.backfillStep_of_lt event hlt]
    rcases hinv.recordSeeded_cases hbury event hlt htip with
      ⟨-, he⟩ | ⟨-, -, record, reason, he⟩ | ⟨-, -, row, schema, record, -, he⟩
    · rw [he]
      exact hold
    · rw [he]
      exact fun k p hp => absurd hp (by simp [halted])
    · rw [he]
      intro k p hp
      simp only at hp
      rw [acceptSeeded_getElem?] at hp
      split at hp
      · rename_i hk
        obtain rfl : k = position.block := hk
        rw [eventsAt_concat, if_pos rfl]
        exact List.append_ne_nil_of_right_ne_nil _ (List.cons_ne_nil _ _)
      · exact hold k p hp

omit [RecordOps ρ E] in
/-- The end of a backfill leaves the groups of the window, if its settled writer is healthy. -/
theorem pending_settle {s : Pipeline σ ρ BlockPosition E}
    (h : s.settle.settled.core.healthy = true) (k : Nat) :
    s.settle.window.pending[k]? = s.window.pending[k]? := by
  cases hfin : (s.settled.finish s.io).1.core.healthy with
  | true => rw [Pipeline.settle_of_healthy _ hfin, absorb_pending]
  | false =>
    rw [Pipeline.settle_of_unhealthy _ hfin] at h
    exact absurd (hfin.symm.trans h) (by simp)

/-- A group is written once all the events of the backfill at its height have come. -/
def WritesWhole (backfill : List (BlockPosition × E)) (past : List (Effect BlockPosition E))
    (x : Effect BlockPosition E) : Prop :=
  ∀ w p rows, x = .wrote w p rows →
    heldEvents past p.block = eventsAt backfill p.block ∧ eventsAt backfill p.block ≠ []

/-- A backfill in order is written in whole groups. -/
theorem writesWhole_backfill (store : σ) (record : ρ) {backfill : List (BlockPosition × E)}
    (hbury : ∀ k, (∀ c ∈ cut, c < k) → k ≤ tip → tip < saturatingAdd u64Max k depth)
    (htip : ∀ x ∈ backfill, x.1.block ≤ tip)
    (hseed : ∀ x ∈ backfill, ∀ p ∈ seed, p.block < x.1.block)
    (hsorted : backfill.Pairwise fun x y => x.1.block ≤ y.1.block) :
    LiveTracks seed depth (Ledger.snapshot backfill)
        (persistAndEmit backfill [] store record depth cut seed) ∧
      Always (WritesWhole backfill)
        (persistAndEmit backfill [] store record depth cut seed).io.effects := by
  refine persistAndEmit_tracks backfill [] store record hbury htip hseed trivial
    (fun past x hx w p rows he => ?_) (fun done rest past p rows hsplit hc hnext hheld hne => ?_)
    fun done key e rest past p rows hnil => absurd hnil (by simp)
  · rw [he] at hx
    exact absurd hx (by simp [Effect.wrote?])
  · intro w p' rows' he
    obtain ⟨-, rfl, rfl⟩ := Effect.wrote.inj he
    obtain ⟨c, hcm, hpc⟩ := hc
    rw [hsplit, List.pairwise_append] at hsorted
    rw [hheld c hcm _ hpc, hsplit, eventsAt_append,
      eventsAt_eq_nil_of_head hsorted.2.1 hnext, List.append_nil]
    exact ⟨rfl, hne⟩

omit [Store σ BlockPosition] in
/-- A group written whole holds the rows that are held at its height in the end. -/
theorem rows_of_writesWhole {backfill : List (BlockPosition × E)} {io : Io σ ρ BlockPosition E}
    (henc : Encoded io) (hsafe : Always (Safe seed) io.effects)
    (hwhole : Always (WritesWhole backfill) io.effects)
    (hevents : ∀ k, heldEvents io.effects k = eventsAt backfill k) {g : BlockPosition × List Row}
    (hg : g ∈ writes io.effects) :
    g.2 = heldRows io.effects g.1.block ∧ eventsAt backfill g.1.block ≠ [] := by
  obtain ⟨w, hm⟩ := mem_writes.mp hg
  obtain ⟨past, rest, hsplit⟩ := List.append_of_mem hm
  obtain ⟨hpast, hne⟩ := hwhole past _ rest hsplit w g.1 g.2 rfl
  have hgroup : WriteSafe seed past w g.1 g.2 := hsafe past _ rest hsplit
  rw [hgroup.rows_eq]
  exact ⟨henc.heldRows_congr ⟨_, hsplit.symm⟩ (List.prefix_refl _)
    (hpast.trans (hevents _).symm), hne⟩

/-- A backfill in order leaves the writers healthy, and in the window the groups above the cut. -/
theorem seeded_backfill (hW : Reliable BlockPosition W) (hR : Encodes D R) {store : σ}
    (hs : W store) {record : ρ} (hr : R record) {backfill : List (BlockPosition × E)}
    (hbury : ∀ k, (∀ c ∈ cut, c < k) → k ≤ tip → tip < saturatingAdd u64Max k depth)
    (htip : ∀ x ∈ backfill, x.1.block ≤ tip) (hD : ∀ x ∈ backfill, D x.2)
    (hseed : ∀ x ∈ backfill, ∀ p ∈ seed, p.block < x.1.block)
    (hsorted : backfill.Pairwise fun x y => x.1.block ≤ y.1.block)
    (hlo : ∀ x ∈ backfill, lo ≤ x.1.block) :
    Upkeep W R depth lo seed (windowSeed seed cut)
        (persistAndEmit backfill [] store record depth cut seed) ∧
      Seeded (windowSeed seed cut) backfill
        (persistAndEmit backfill [] store record depth cut seed) := by
  -- the window only ever holds heights of the backfill
  obtain ⟨hinv, -, hpending⟩ := steady_backfill_rule hW hR hs hr hbury htip hD hseed hsorted
    (I := fun done s => ∀ (k : Nat) p, s.window.pending[k]? = some p → eventsAt done k ≠ [])
    (fun k p hp => absurd hp (by simp [Pipeline.start, ConfirmationWindow.new]))
    fun done item rest s hsplit hinv _ _ h =>
      pending_backfillStep hinv hbury (htip item (by rw [hsplit]; simp)) h
  obtain ⟨hsteady, hle, hge⟩ := steady_backfill hW hR hs hr hbury htip hD hseed hsorted
  -- the backfill does not raise the mark beyond the one the window starts with
  have hflushed : ∀ f ∈ (persistAndEmit backfill [] store record depth cut
      seed).window.flushed, f ∈ windowSeed seed cut := by
    intro f hf
    obtain ⟨g, hg, hfg⟩ := hle f hf
    obtain ⟨f', hf', hgf⟩ := hge g hg
    obtain rfl := Option.mem_unique hf hf'
    rwa [Nat.le_antisymm hfg hgf]
  have hpend : ∀ (k : Nat) p, (persistAndEmit backfill [] store record depth cut
      seed).window.pending[k]? = some p → eventsAt backfill k ≠ [] := fun k p hp =>
    hpending k p ((pending_settle hsteady.settled k).symm.trans hp)
  obtain ⟨htracks, hwhole⟩ := writesWhole_backfill store record hbury htip hseed hsorted
  have hevents := (htracks.tracks hsteady.window).events
  have hunfilled := (htracks.tracks hsteady.window).unfilled
  have hheights : ∀ k, eventsAt backfill k ≠ [] → lo ≤ k := by
    intro k hne
    obtain ⟨e, he⟩ := List.exists_mem_of_ne_nil _ hne
    exact hlo _ (mem_eventsAt.mp he)
  have hgroups := fun g (hg : g ∈ writes (persistAndEmit backfill [] store record depth cut
      seed).io.effects) =>
    rows_of_writesWhole (encoded_persistAndEmit backfill [] store record depth cut seed)
      htracks.live.1 hwhole hevents hg
  refine ⟨⟨hsteady, htracks.live, fun g hg => (hgroups g hg).1, fun g hg =>
    Or.inl (hheights _ (hgroups g hg).2), fun k p hp => Or.inl (hheights k (hpend k p hp)),
    fun f hf => Or.inl (hflushed f hf), hge⟩, hevents, fun k hk hne =>
    (hunfilled k (Nat.zero_le k) hk hne).1, fun k hk => ?_, hflushed⟩
  obtain ⟨p, hp, -⟩ := pending_of_seededAt hk
  have hne := hpend k p hp
  exact ⟨hne, (hunfilled k (Nat.zero_le k)
    ((htracks.live.2 hsteady.window).buffered.above k p hp).1 hne).2⟩

end Seam

end ArtemisLight
