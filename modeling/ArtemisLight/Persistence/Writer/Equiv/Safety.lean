import ArtemisLight.Persistence.Writer.Equiv.Window
import ArtemisLight.Persistence.Writer.Pipeline

/-!
# Safety of the block writers

`Safe` is what every write of a block subscription satisfies, whatever the input and whatever fails:
the written keys increase strictly from the seed, a writer that halted writes nothing more, and a
group is written only when every lower group that is still held has been written.  `LiveOk` is the
invariant of a healthy window that carries it.
-/

namespace ArtemisLight

variable {σ ρ E : Type}

/-- What a write has to satisfy, given what happened before it. -/
structure WriteSafe (seed : Option BlockPosition) (past : List (Effect BlockPosition E))
    (writer : Writer) (position : BlockPosition) (rows : List Row) : Prop where
  above_seed : ∀ s ∈ seed, s.block < position.block
  increasing : ∀ g ∈ writes past, g.1.block < position.block
  healthy : ∀ r, .halted writer r ∉ past
  settled_healthy : ∀ r, .halted .settled r ∉ past
  rows_eq : rows = heldRows past position.block
  gap_free : ∀ k < position.block, held past k ≠ [] → (⟨k⟩, heldRows past k) ∈ writes past

/-- Writes are safe, and the settled writer halts before the window has written anything. -/
def Safe (seed : Option BlockPosition) (past : List (Effect BlockPosition E)) :
    Effect BlockPosition E → Prop
  | .wrote writer position rows => WriteSafe seed past writer position rows
  | .halted .settled _ => ∀ position rows, .wrote .window position rows ∉ past
  | _ => True

/-- The pending map of a healthy window against what is held: above the flushed mark they agree. -/
structure Buffered (w : ConfirmationWindow BlockPosition)
    (effects : List (Effect BlockPosition E)) :
    Prop where
  writer : w.core.writer = .window
  above : ∀ (k : Nat) p, w.pending[k]? = some p → (∀ f ∈ w.flushed, f < k) ∧ p.position = ⟨k⟩
  rows : ∀ k, (∀ f ∈ w.flushed, f < k) → w.rowsAt k = heldRows effects k
  schema : ∀ (k : Nat) p, w.pending[k]? = some p → w.core.schema.isSome

/-- A healthy window after the backfill: nothing has halted, and everything held up to the flushed
mark is written. -/
structure LiveOk (seed : Option BlockPosition) (w : ConfirmationWindow BlockPosition)
    (effects : List (Effect BlockPosition E)) : Prop where
  safe : Always (Safe seed) effects
  clean : ∀ writer r, .halted writer r ∉ effects
  above_seed : ∀ s ∈ seed, ∃ f ∈ w.flushed, s.block ≤ f
  written : ∀ g ∈ writes effects, ∃ f ∈ w.flushed, g.1.block ≤ f
  complete : ∀ f ∈ w.flushed, ∀ k ≤ f, held effects k ≠ [] →
    (⟨k⟩, heldRows effects k) ∈ writes effects
  buffered : Buffered w effects

/-! ### The flush loop -/

section Flush

variable {seed : Option BlockPosition}

theorem Buffered.rows_of_pending {w : ConfirmationWindow BlockPosition}
    {effects : List (Effect BlockPosition E)} (h : Buffered w effects) {k : Nat}
    {p : Pending BlockPosition} (hp : w.pending[k]? = some p) : p.rows = heldRows effects k := by
  rw [← h.rows k (h.above k p hp).1, ConfirmationWindow.rowsAt, hp]
  rfl

/-- Writing the lowest pending group is safe. -/
theorem LiveOk.writeSafe {w : ConfirmationWindow BlockPosition}
    {effects : List (Effect BlockPosition E)} (h : LiveOk seed w effects) {b : Nat}
    {p : Pending BlockPosition} (hp : w.pending[b]? = some p)
    (hmin : ∀ (k : Nat) q, w.pending[k]? = some q → b ≤ k) :
    WriteSafe seed effects .window p.position p.rows := by
  obtain ⟨hf, hpos⟩ := h.buffered.above b p hp
  rw [hpos]
  refine ⟨fun s hs => ?_, fun g hg => ?_, h.clean _, h.clean _, h.buffered.rows_of_pending hp,
    fun k hk hne => ?_⟩
  · obtain ⟨f, hfm, hle⟩ := h.above_seed s hs
    exact Nat.lt_of_le_of_lt hle (hf f hfm)
  · obtain ⟨f, hfm, hle⟩ := h.written g hg
    exact Nat.lt_of_le_of_lt hle (hf f hfm)
  · by_cases hkf : ∃ f ∈ w.flushed, k ≤ f
    · obtain ⟨f, hfm, hle⟩ := hkf
      exact h.complete f hfm k hle hne
    · -- above the flushed mark a held row is pending, and `b` is the lowest pending key
      have hrows := h.buffered.rows k fun f hfm => Nat.lt_of_not_le fun hle => hkf ⟨f, hfm, hle⟩
      have hne' : w.rowsAt k ≠ [] := by
        rw [hrows]
        simpa using hne
      obtain ⟨q, hq, -⟩ := ConfirmationWindow.rowsAt_ne_nil hne'
      exact absurd (hmin k q hq) (Nat.not_le_of_lt hk)

theorem LiveOk.finalize {w : ConfirmationWindow BlockPosition}
    {effects : List (Effect BlockPosition E)} (h : LiveOk seed w effects) {b : Nat}
      {p : Pending BlockPosition}
    (hp : w.pending[b]? = some p) (hmin : ∀ (k : Nat) q, w.pending[k]? = some q → b ≤ k) :
    LiveOk seed (w.finalize b p) (effects ++ [.wrote .window p.position p.rows]) := by
  obtain ⟨hf, hpos⟩ := h.buffered.above b p hp
  have hsafe := h.writeSafe hp hmin
  -- the mark rises to the group that is written
  have hfl : (w.finalize b p).flushed = some b := by
    unfold ConfirmationWindow.finalize
    rcases hw : w.flushed with _ | f
    · rfl
    · have := hf f hw
      simp only [Option.elim_some, Option.some.injEq]
      omega
  have hpend : ∀ (k : Nat) q, (w.finalize b p).pending[k]? = some q →
      k ≠ b ∧ w.pending[k]? = some q := by
    intro k q hq
    rw [ConfirmationWindow.finalize, ConfirmationWindow.getElem?_erase] at hq
    split at hq
    · exact absurd hq (by simp)
    · exact ⟨‹_›, hq⟩
  have hlt : ∀ k, b < k → ∀ f ∈ w.flushed, f < k := fun k hk f hm => Nat.lt_trans (hf f hm) hk
  refine ⟨h.safe.concat hsafe, fun wr r hm => ?_, fun s hs => ⟨b, hfl, ?_⟩, fun g hg =>
    ⟨b, hfl, ?_⟩,
    fun f hm k hk hne => ?_,
      ⟨h.buffered.writer, fun k q hq => ?_, fun k hk => ?_, fun k q hq => ?_⟩⟩
  · rw [List.mem_append, List.mem_singleton] at hm
    exact hm.elim (h.clean wr r) (by simp)
  · have := hsafe.above_seed s hs
    rw [hpos] at this
    exact Nat.le_of_lt this
  · rw [writes_append, List.mem_append] at hg
    rcases hg with hg | hg
    · have := hsafe.increasing g hg
      rw [hpos] at this
      exact Nat.le_of_lt this
    · simp only [writes, List.filterMap_cons, Effect.wrote?, List.filterMap_nil,
        List.mem_singleton] at hg
      rw [hg, hpos]
  · rw [hfl, Option.mem_def, Option.some.injEq] at hm
    subst hm
    simp only [heldRows, held_concat_wrote] at hne ⊢
    rw [writes_append, List.mem_append]
    rcases Nat.lt_or_eq_of_le hk with hk | rfl
    · have hw := hsafe.gap_free k (by rw [hpos]; exact hk) hne
      exact Or.inl hw
    · refine Or.inr ?_
      simp only [writes, List.filterMap_cons, Effect.wrote?, List.filterMap_nil, List.mem_singleton]
      rw [hpos, h.buffered.rows_of_pending hp]
  · obtain ⟨hkb, hq⟩ := hpend k q hq
    have := hmin k q hq
    refine ⟨fun f hm => ?_, (h.buffered.above k q hq).2⟩
    rw [hfl, Option.mem_def, Option.some.injEq] at hm
    omega
  · have hbk : b < k := hk b hfl
    rw [heldRows, held_concat_wrote, ← heldRows, ← h.buffered.rows k (hlt k hbk)]
    unfold ConfirmationWindow.rowsAt ConfirmationWindow.finalize
    simp only
    rw [ConfirmationWindow.getElem?_erase, if_neg (by omega)]
  · exact h.buffered.schema k q (hpend k q hq).2

/-- Flushing the matured groups keeps the invariant, or halts. -/
theorem LiveOk.flushMatured [Store σ BlockPosition] {w : ConfirmationWindow BlockPosition}
    {io : Io σ ρ BlockPosition E}
    (h : LiveOk seed w io.effects) :
    Always (Safe seed) (w.flushMatured io).2.effects ∧
      ((w.flushMatured io).1.core.healthy = true →
        LiveOk seed (w.flushMatured io).1 (w.flushMatured io).2.effects) := by
  unfold ConfirmationWindow.flushMatured
  rcases w.head with _ | head
  · exact ⟨h.safe, fun _ => h⟩
  rcases hs : w.core.schema with _ | schema
  · -- no schema, so nothing is pending
    have hnil : w.matured head = [] := by
      rw [List.eq_nil_iff_forall_not_mem]
      intro k hk
      obtain ⟨⟨p, hp⟩, -⟩ := ConfirmationWindow.mem_matured.mp hk
      have := h.buffered.schema k p hp
      simp [hs] at this
    simp only [hnil, ConfirmationWindow.flushLoop]
    exact ⟨h.safe, fun _ => h⟩
  -- the remaining keys are ascending, and every pending key is one of them or above them all
  refine ConfirmationWindow.flushLoop_rule
    (I := fun w io bs => LiveOk seed w io.effects ∧ bs.Pairwise (· < ·) ∧
      ∀ (k : Nat) p, w.pending[k]? = some p → k ∈ bs ∨ ∀ b ∈ bs, b < k)
    (J := fun w io => Always (Safe seed) io.effects ∧
      (w.core.healthy = true → LiveOk seed w io.effects))
    ?_ ?_ ?_ (fun w io hI => ⟨hI.1.safe, fun _ => hI.1⟩) (w.matured head) w io hs
    ⟨h, w.matured_pairwise head, ?_⟩
  · rintro w io b bs hb ⟨h, hpw, hcov⟩
    refine ⟨h, hpw.of_cons, fun k p hp => ?_⟩
    rcases hcov k p hp with hk | hk
    · rcases List.mem_cons.mp hk with rfl | hk
      · rw [hb] at hp
        exact absurd hp (by simp)
      · exact Or.inl hk
    · exact Or.inr fun b' hb' => hk b' (List.mem_cons_of_mem _ hb')
  · rintro w io b bs p store hp ⟨h, hpw, hcov⟩ -
    have hmin : ∀ (k : Nat) q, w.pending[k]? = some q → b ≤ k := by
      intro k q hq
      rcases hcov k q hq with hk | hk
      · rcases List.mem_cons.mp hk with rfl | hk
        · exact Nat.le_refl _
        · exact Nat.le_of_lt (List.rel_of_pairwise_cons hpw hk)
      · exact Nat.le_of_lt (hk b (by simp))
    rw [h.buffered.writer]
    refine ⟨h.finalize hp hmin, hpw.of_cons, fun k q hq => ?_⟩
    rw [ConfirmationWindow.finalize, ConfirmationWindow.getElem?_erase] at hq
    split at hq
    · exact absurd hq (by simp)
    · rcases hcov k q hq with hk | hk
      · exact Or.inl ((List.mem_cons.mp hk).resolve_left ‹_›)
      · exact Or.inr fun b' hb' => hk b' (List.mem_cons_of_mem _ hb')
  · rintro w io b bs p e store hp ⟨h, -, -⟩ -
    rw [h.buffered.writer]
    exact ⟨h.safe.concat trivial, fun hh => absurd hh (by simp)⟩
  · intro k p hp
    by_cases hm : saturatingAdd u64Max k w.depth ≤ head
    · exact Or.inl (ConfirmationWindow.mem_matured.mpr ⟨⟨p, hp⟩, hm⟩)
    · refine Or.inr fun b hb => Nat.lt_of_not_le fun hle => hm ?_
      have := (ConfirmationWindow.mem_matured.mp hb).2
      unfold saturatingAdd at this ⊢
      omega

end Flush

/-! ### The live stream -/

section Live

open ConfirmationWindow

variable {seed : Option BlockPosition} {w : ConfirmationWindow BlockPosition}
  {io : Io σ ρ BlockPosition E}

theorem Buffered.withSchema {effects : List (Effect BlockPosition E)} (h : Buffered w effects)
    (schema : TableSchema) : Buffered (w.withSchema schema) effects :=
  ⟨h.writer, h.above, h.rows, fun _ _ _ => rfl⟩

theorem LiveOk.withSchema {effects : List (Effect BlockPosition E)} (h : LiveOk seed w effects)
    (schema : TableSchema) : LiveOk seed (w.withSchema schema) effects :=
  ⟨h.safe, h.clean, h.above_seed, h.written, h.complete, h.buffered.withSchema schema⟩

/-- Accepting a live event above the flushed mark keeps the pending map in step with what is
held. -/
theorem Buffered.accepted {position : BlockPosition} {event : E} {row : Row}
    {w' : ConfirmationWindow BlockPosition} {io' : Io σ ρ BlockPosition E} {delivered : Bool}
    (ha : Accepted w io position event row w' io' delivered) (h : Buffered w io.effects)
    (hf : ∀ f ∈ w.flushed, f < position.block) (hs : w.core.schema.isSome) :
    Buffered w' io'.effects := by
  -- an event above the mark changes no group at or below it
  refine ⟨by rw [ha.core]; exact h.writer, fun k p hp => ?_, fun k hk => ?_, fun k p hp => ?_⟩
  · rw [ha.flushed]
    rw [ha.pending] at hp
    simp only [BlockPosition.sortKey_eq] at hp
    split at hp
    · rename_i hk
      subst hk
      refine ⟨hf, ?_⟩
      rw [Option.some.injEq] at hp
      subst hp
      unfold acceptedGroup baseAt
      rcases hq : w.pending[position.block]? with _ | q
      · rfl
      · have hpos := (h.above _ q hq).2
        cases hqs : q.seeded <;> cases w.reorgAt position.block <;>
          simp [hqs, hpos, Pending.unseed]
    · split at hp
      · rw [getElem?_rewind] at hp
        obtain ⟨q, hq, hqp⟩ := Option.bind_eq_some_iff.mp hp
        refine ⟨(h.above k q hq).1, ?_⟩
        split at hqp
        · split at hqp
          · rw [← Option.some.inj hqp]
            exact (h.above k q hq).2
          · exact absurd hqp (by simp)
        · rw [← Option.some.inj hqp]
          exact (h.above k q hq).2
      · exact h.above k p hp
  · rw [ha.flushed] at hk
    have hrows := h.rows k hk
    have hkey := h.rows position.block hf
    rw [ha.rowsAt, heldRows, ha.held]
    simp only [BlockPosition.sortKey_eq]
    split
    · split <;> simp [hkey]
    · split
      · rfl
      · exact hrows
  · rw [ha.core]
    exact hs

theorem LiveOk.accepted {position : BlockPosition} {event : E} {row : Row}
    {w' : ConfirmationWindow BlockPosition} {io' : Io σ ρ BlockPosition E} {delivered : Bool}
    (ha : Accepted w io position event row w' io' delivered) (h : LiveOk seed w io.effects)
    (hf : ∀ f ∈ w.flushed, f < position.block) (hs : w.core.schema.isSome) :
    LiveOk seed w' io'.effects := by
  -- nothing is written by an event before the flush
  obtain ⟨mid, hmid, hq⟩ : ∃ mid, io'.effects = io.effects ++ mid ∧
      ∀ x ∈ mid, x.wrote? = none ∧ (∀ wr r, x ≠ .halted wr r) ∧ ∀ past, Safe seed past x := by
    refine ⟨_, by rw [ha.effects, List.append_assoc], fun x hx => ?_⟩
    rw [List.mem_append, List.mem_singleton] at hx
    rcases hx with hx | rfl
    · split at hx
      · rw [List.mem_singleton.mp hx]
        exact ⟨rfl, by simp, fun _ => trivial⟩
      · split at hx
        · rw [List.mem_singleton.mp hx]
          exact ⟨rfl, by simp, fun _ => trivial⟩
        · exact absurd hx (by simp)
    · exact ⟨rfl, by simp, fun _ => trivial⟩
  have hw : writes io'.effects = writes io.effects := by
    have hnil : writes mid = [] := List.filterMap_eq_nil_iff.mpr fun x hx => (hq x hx).1
    rw [hmid, writes_append, hnil, List.append_nil]
  refine ⟨?_, fun wr r hm => ?_, ?_, ?_, fun f hm k hk hne => ?_,
    Buffered.accepted ha h.buffered hf hs⟩
  · rw [hmid]
    exact h.safe.append_of_forall fun x hx => (hq x hx).2.2
  · rw [hmid, List.mem_append] at hm
    exact hm.elim (h.clean wr r) fun hm => (hq _ hm).2.1 wr r rfl
  · rw [ha.flushed]
    exact h.above_seed
  · rw [ha.flushed, hw]
    exact h.written
  · rw [ha.flushed] at hm
    have hlt := hf f hm
    have hheld : held io'.effects k = held io.effects k := by
      rw [ha.held]
      simp only [BlockPosition.sortKey_eq]
      rw [if_neg (by omega), if_neg (by omega)]
    rw [hw]
    simp only [heldRows, hheld] at hne ⊢
    exact h.complete f hm k hk hne

/-- A retraction above the flushed mark keeps the invariant. -/
theorem LiveOk.rewound {key : Nat} (h : LiveOk seed w io.effects) (hf : ∀ f ∈ w.flushed, f < key)
    (head : Option Nat) :
    LiveOk seed { w.rewind key with head } (io.effects ++ [.rewound key]) := by
  -- what is retracted is above everything flushed
  have hheld : ∀ f ∈ w.flushed, ∀ k ≤ f,
      held (io.effects ++ [.rewound key]) k = held io.effects k := by
    intro f hm k hk
    have := hf f hm
    rw [held_concat_rewound, if_neg (by omega)]
  have hpend : ∀ (k : Nat) p, (w.rewind key).pending[k]? = some p →
      ∃ q, w.pending[k]? = some q ∧ p.position = q.position := by
    intro k p hp
    rw [getElem?_rewind] at hp
    obtain ⟨q, hq, hqp⟩ := Option.bind_eq_some_iff.mp hp
    refine ⟨q, hq, ?_⟩
    split at hqp
    · split at hqp
      · rw [← Option.some.inj hqp]
        rfl
      · exact absurd hqp (by simp)
    · rw [Option.some.inj hqp]
  have hw : writes (io.effects ++ [.rewound key]) = writes io.effects := by
    simp [writes, Effect.wrote?]
  refine ⟨h.safe.concat trivial, fun wr r hm => ?_, h.above_seed, ?_, fun f hm k hk hne => ?_,
    ⟨h.buffered.writer, fun k p hp => ?_, fun k hk => ?_, fun k p hp => ?_⟩⟩
  · rw [List.mem_append, List.mem_singleton] at hm
    exact hm.elim (h.clean wr r) (by simp)
  · rw [hw]
    exact h.written
  · rw [hw]
    simp only [heldRows, hheld f hm k hk] at hne ⊢
    exact h.complete f hm k hk hne
  · obtain ⟨q, hq, hpos⟩ := hpend k p hp
    rw [hpos]
    exact h.buffered.above k q hq
  · have := rowsAt_rewind w key k
    rw [h.buffered.rows k hk] at this
    rw [heldRows, held_concat_rewound]
    simp only [ConfirmationWindow.rowsAt] at this ⊢
    rw [this]
    split <;> rfl
  · obtain ⟨q, hq, -⟩ := hpend k p hp
    exact h.buffered.schema k q hq

variable [Store σ BlockPosition] [RecordOps ρ E]

/-- The invariant of the live stream. -/
def LiveInv (seed : Option BlockPosition) (s : Pipeline σ ρ BlockPosition E) : Prop :=
  Always (Safe seed) s.io.effects ∧
    (s.window.core.healthy = true → LiveOk seed s.window s.io.effects)

theorem LiveOk.deliver {effects : List (Effect BlockPosition E)} (h : LiveOk seed w effects)
    (position : BlockPosition) (event : E) (delivered : Bool) :
    LiveOk seed w
      (effects ++ [if delivered then .yielded event else .suppressed position event]) := by
  set x : Effect BlockPosition E := if delivered then .yielded event else .suppressed position event
    with hx
  have hh : held (effects ++ [x]) = held effects := by
    cases delivered <;> simp [hx]
  have hw : writes (effects ++ [x]) = writes effects := by
    cases delivered <;> simp [hx, writes, Effect.wrote?]
  refine ⟨h.safe.concat (by cases delivered <;> trivial), fun wr r hm => ?_, h.above_seed, ?_, ?_,
    ⟨h.buffered.writer, h.buffered.above, ?_, h.buffered.schema⟩⟩
  · rw [List.mem_append, List.mem_singleton] at hm
    exact hm.elim (h.clean wr r) (by cases delivered <;> simp [hx])
  · rw [hw]
    exact h.written
  · simp only [heldRows, hh, hw]
    exact h.complete
  · simp only [heldRows, hh]
    exact h.buffered.rows

theorem LiveInv.liveStep {s : Pipeline σ ρ BlockPosition E} (h : LiveInv seed s)
    (item : Indexed BlockPosition E) : LiveInv seed (s.liveStep item) := by
  rcases item with ⟨position, event⟩ | position
  · rw [Pipeline.liveStep_event]
    unfold LiveInv Io.deliver
    rcases s.window.record_cases rfl s.io position event with
      ⟨hh, he⟩ | ⟨hh, -, he⟩ | ⟨hh, -, e, record, -, he⟩ |
      ⟨hh, hf, row, schema, record, w', io', d, -, ha, he⟩
    · rw [he]
      exact ⟨h.1.concat (by simp [Safe]), fun hc => absurd hc (by simp [hh])⟩
    · rw [he]
      -- a halt of the window writes nothing, so what was safe stays safe
      refine ⟨(h.1.concat ?_).concat (by simp [Safe]), fun hc => absurd hc (by simp [halted])⟩
      rw [(h.2 hh).buffered.writer]
      trivial
    · rw [he]
      refine ⟨(h.1.concat ?_).concat (by simp [Safe]), fun hc => absurd hc (by simp [halted])⟩
      rw [(h.2 hh).buffered.writer]
      trivial
    · rw [he]
      have hok : LiveOk seed w' io'.effects :=
        LiveOk.accepted ha ((h.2 hh).withSchema schema) hf rfl
      obtain ⟨hsafe, hlive⟩ := hok.flushMatured
      refine ⟨hsafe.concat (by cases d <;> trivial), fun hc => ?_⟩
      exact (hlive hc).deliver position event d
  · rw [Pipeline.liveStep_retract]
    unfold LiveInv
    rcases s.window.retract_cases rfl s.io position with
      ⟨hh, he⟩ | ⟨hh, -, he⟩ | ⟨hh, hf, he⟩
    · rw [he]
      exact h
    · rw [he]
      refine ⟨h.1.concat ?_, fun hc => absurd hc (by simp [halted])⟩
      rw [(h.2 hh).buffered.writer]
      trivial
    · rw [he]
      have hok := (h.2 hh).rewound hf (s.window.head.map (min · (position.block - 1)))
      exact ⟨hok.safe, fun _ => hok⟩

end Live

end ArtemisLight
