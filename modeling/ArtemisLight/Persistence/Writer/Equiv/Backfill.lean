import ArtemisLight.Persistence.Writer.Equiv.Block
import ArtemisLight.Persistence.Writer.Equiv.Safety

/-!
# Safety of the backfill

`BackfillInv` is the invariant of the backfill: the settled writer owns the keys up to the final
cut, and the window only buffers the keys above it.  With the invariant of the live stream it makes
every effect of a block subscription safe (`safe_persistAndEmit`).
-/

namespace ArtemisLight

open ConfirmationWindow

variable {σ ρ E : Type}

/-! ### The invariant -/

/-- A healthy settled writer during the backfill: the rows held up to the cut are in the open group
or written. -/
structure SettledOk (seed : Option BlockPosition) (cut : Option Nat) (w : BlockWriter BlockPosition)
    (effects : List (Effect BlockPosition E)) : Prop where
  writer : w.core.writer = .settled
  clean : ∀ r, .halted .settled r ∉ effects
  schema : w.current.isSome → w.core.schema.isSome
  current_le : ∀ cur ∈ w.current, ∃ c ∈ cut, cur.block ≤ c
  above_seed : ∀ cur ∈ w.current, ∀ s ∈ seed, s.block < cur.block
  buffer : ∀ cur ∈ w.current, w.buffer = heldRows effects cur.block
  buffer_ne : ∀ cur ∈ w.current, w.buffer ≠ []
  fresh : w.current = none → w.buffer = [] ∧ writes effects = []
  written : ∀ cur ∈ w.current, ∀ g ∈ writes effects, g.1.block < cur.block
  held_le : ∀ c ∈ cut, ∀ k ≤ c, held effects k ≠ [] → ∃ cur ∈ w.current, k ≤ cur.block
  closed : ∀ c ∈ cut, ∀ k ≤ c, held effects k ≠ [] →
    (∃ cur ∈ w.current, k = cur.block) ∨ (⟨k⟩, heldRows effects k) ∈ writes effects

/-- The flushed mark the window starts from. -/
def windowSeed (seed : Option BlockPosition) (cut : Option Nat) : Option Nat :=
  match cut with
  | some c => some (seed.elim c (max ·.block c))
  | none => seed.map (·.block)

/-- The invariant of the backfill. -/
structure BackfillInv (seed : Option BlockPosition) (cut : Option Nat) (tip depth : Nat)
    (s : Pipeline σ ρ BlockPosition E) : Prop where
  safe : Always (Safe seed) s.io.effects
  no_window : ∀ p rows, .wrote .window p rows ∉ s.io.effects
  written : ∀ g ∈ writes s.io.effects, ∃ c ∈ cut, g.1.block ≤ c
  above_seed : ∀ k, held s.io.effects k ≠ [] → ∀ p ∈ seed, p.block < k
  settled : s.settled.core.healthy = true → SettledOk seed cut s.settled s.io.effects
  watermark : ∀ p ∈ s.settled.watermark, ∃ f ∈ windowSeed seed cut, p.block ≤ f
  window : s.window.core.healthy = true →
    Buffered s.window s.io.effects ∧ ∀ r, .halted .window r ∉ s.io.effects
  window_writer : s.window.core.writer = .window
  flushed : s.window.flushed = windowSeed seed cut
  head : ∀ h ∈ s.window.head, h ≤ tip
  depth_eq : s.window.depth = depth

variable {seed : Option BlockPosition} {cut : Option Nat} {tip depth : Nat}

theorem le_windowSeed_of_seed {p : BlockPosition} (h : p ∈ seed) :
    ∃ f ∈ windowSeed seed cut, p.block ≤ f := by
  rw [Option.mem_def] at h
  rcases cut with _ | c
  · exact ⟨p.block, by simp [windowSeed, h], Nat.le_refl _⟩
  · exact ⟨max p.block c, by simp [windowSeed, h], Nat.le_max_left _ _⟩

theorem le_windowSeed_of_cut (seed : Option BlockPosition) {c : Nat} (h : c ∈ cut) :
    ∃ f ∈ windowSeed seed cut, c ≤ f := by
  rw [Option.mem_def] at h
  subst h
  rcases seed with _ | p
  · exact ⟨c, rfl, Nat.le_refl _⟩
  · exact ⟨max p.block c, rfl, Nat.le_max_right _ _⟩

theorem windowSeed_cases {f : Nat} (h : f ∈ windowSeed seed cut) :
    (∃ p ∈ seed, f = p.block) ∨ ∃ c ∈ cut, f = c := by
  rw [Option.mem_def] at h
  rcases cut with _ | c <;> rcases seed with _ | p
  · exact absurd h (by simp [windowSeed])
  · simp only [windowSeed, Option.map_some, Option.some.injEq] at h
    exact Or.inl ⟨p, rfl, h.symm⟩
  · simp only [windowSeed, Option.elim_none, Option.some.injEq] at h
    exact Or.inr ⟨c, rfl, h.symm⟩
  · simp only [windowSeed, Option.elim_some, Option.some.injEq] at h
    rcases Nat.le_total p.block c with hle | hle
    · exact Or.inr ⟨c, rfl, by omega⟩
    · exact Or.inl ⟨p, rfl, by omega⟩

theorem lt_of_windowSeed {f k : Nat} (hf : f ∈ windowSeed seed cut) (hs : ∀ p ∈ seed, p.block < k)
    (hc : ∀ c ∈ cut, c < k) : f < k := by
  rcases windowSeed_cases hf with ⟨p, hp, rfl⟩ | ⟨c, hcm, rfl⟩
  · exact hs p hp
  · exact hc f hcm

theorem SettledOk.frame {w : BlockWriter BlockPosition} {effects : List (Effect BlockPosition E)}
    {x : Effect BlockPosition E} (h : SettledOk seed cut w effects)
    (hk : ∀ c ∈ cut, ∀ k ≤ c, held (effects ++ [x]) k = held effects k) (hx : x.wrote? = none)
    (hr : ∀ r, x ≠ .halted .settled r) : SettledOk seed cut w (effects ++ [x]) := by
  have hw : writes (effects ++ [x]) = writes effects := by
    rw [writes_append]
    simp [writes, hx]
  refine ⟨h.writer, fun r hm => ?_, h.schema, h.current_le, h.above_seed, fun cur hc => ?_,
    h.buffer_ne, ?_, ?_, fun c hcm k hle hne => ?_, fun c hcm k hle hne => ?_⟩
  · rw [List.mem_append, List.mem_singleton] at hm
    exact hm.elim (h.clean r) fun hm => hr r hm.symm
  · obtain ⟨c, hcm, hle⟩ := h.current_le cur hc
    rw [heldRows, hk c hcm _ hle]
    exact h.buffer cur hc
  · rw [hw]
    exact h.fresh
  · rw [hw]
    exact h.written
  · rw [hk c hcm k hle] at hne
    exact h.held_le c hcm k hle hne
  · rw [hk c hcm k hle] at hne
    rw [heldRows, hk c hcm k hle, hw]
    exact h.closed c hcm k hle hne

theorem Buffered.frame {w : ConfirmationWindow BlockPosition}
    {effects effects' : List (Effect BlockPosition E)} (h : Buffered w effects)
    (hk : ∀ k, (∀ f ∈ w.flushed, f < k) → held effects' k = held effects k) : Buffered w effects' :=
  ⟨h.writer, h.above, fun k hf => by rw [heldRows, hk k hf]; exact h.rows k hf, h.schema⟩

theorem BackfillInv.deliver {s : Pipeline σ ρ BlockPosition E}
    (h : BackfillInv seed cut tip depth s)
    (position : BlockPosition) (event : E) (delivered : Bool) :
    BackfillInv seed cut tip depth { s with io := s.io.deliver position event delivered } := by
  unfold Io.deliver
  set x : Effect BlockPosition E := if delivered then .yielded event else .suppressed position event
    with hx
  have hh : held (s.io.effects ++ [x]) = held s.io.effects := by
    cases delivered <;> simp [hx]
  have hw : writes (s.io.effects ++ [x]) = writes s.io.effects := by
    cases delivered <;> simp [hx, writes, Effect.wrote?]
  have hmem : ∀ y, y ∈ s.io.effects ++ [x] → y.Quiet → y ∈ s.io.effects := by
    intro y hy hq
    rw [List.mem_append, List.mem_singleton] at hy
    refine hy.resolve_right fun hy => ?_
    rw [hy] at hq
    cases delivered <;> exact hq
  refine ⟨h.safe.concat (by cases delivered <;> trivial),
    fun p rows hm => h.no_window p rows (hmem _ hm trivial), ?_, ?_, fun hs => ?_, h.watermark,
    fun hwh => ?_, h.window_writer, h.flushed, h.head, h.depth_eq⟩
  · simp only [Io.emit_effects, hw]
    exact h.written
  · simp only [Io.emit_effects, hh]
    exact h.above_seed
  · exact (h.settled hs).frame (fun _ _ _ _ => by rw [hh]) (by cases delivered <;> rfl)
      (by cases delivered <;> simp [hx])
  · obtain ⟨hb, hc⟩ := h.window hwh
    refine ⟨hb.frame fun k _ => by rw [Io.emit_effects, hh], fun r hm => hc r (hmem _ hm trivial)⟩

/-! ### The settled writer -/

/-- Writing the open group of the settled writer is safe. -/
theorem SettledOk.writeSafe {w : BlockWriter BlockPosition}
    {effects : List (Effect BlockPosition E)}
    (h : SettledOk seed cut w effects) {cur : BlockPosition} (hcur : cur ∈ w.current) :
    WriteSafe seed effects .settled cur w.buffer := by
  refine ⟨h.above_seed cur hcur, h.written cur hcur, h.clean, h.clean, h.buffer cur hcur,
    fun k hk hne => ?_⟩
  obtain ⟨c, hcm, hle⟩ := h.current_le cur hcur
  rcases h.closed c hcm k (by omega) hne with ⟨cur', hcur', rfl⟩ | hw
  · rw [Option.mem_unique hcur hcur'] at hk
    exact absurd hk (Nat.lt_irrefl _)
  · exact hw

section Push

variable {w : BlockWriter BlockPosition} {effects : List (Effect BlockPosition E)}
  {position : BlockPosition} {c : Nat} (event : E) (row : Row) (schema : TableSchema)

/-- One more row in the open group. -/
theorem SettledOk.pushed (h : SettledOk seed cut w effects) (hc : c ∈ cut)
    (hle : position.block ≤ c)
    (hs : ∀ p ∈ seed, p.block < position.block)
    (hcur : ∀ cur ∈ w.current, cur.block = position.block) :
    SettledOk seed cut ((w.withSchema schema).pushed position row)
      (effects ++ [.accepted .settled position event row]) := by
  have hadv : Position.advance w.current position = position := by
    rcases hw : w.current with _ | cur
    · rfl
    · have := hcur cur hw
      rw [BlockPosition.advance_some, this, Nat.max_self]
  -- the buffer is what is held at the height of the open group
  have hbuf : w.buffer = heldRows effects position.block := by
    rcases hw : w.current with _ | cur
    · rw [(h.fresh hw).1, eq_comm, List.map_eq_nil_iff]
      by_contra hne
      obtain ⟨cur, hcm, -⟩ := h.held_le c hc _ hle hne
      rw [hw] at hcm
      exact absurd hcm (by simp)
    · rw [← hcur cur hw]
      exact h.buffer cur hw
  have hheld : ∀ k, k ≠ position.block →
      held (effects ++ [.accepted .settled position event row]) k = held effects k := by
    intro k hk
    rw [held_concat_accepted, BlockPosition.sortKey_eq, if_neg hk]
  have hw : writes (effects ++ [.accepted .settled position event row]) = writes effects := by
    simp [writes, Effect.wrote?]
  have hmem : ∀ cur, cur ∈ ((w.withSchema schema).pushed position row).current ↔
    cur = position := by
    intro cur
    rw [Option.mem_def, BlockWriter.pushed, BlockWriter.withSchema, hadv, Option.some.injEq,
      eq_comm]
  refine ⟨h.writer, fun r hm => ?_, fun _ => rfl, fun cur hm => ?_, fun cur hm => ?_, fun cur hm =>
    ?_,
    fun _ _ => by simp [BlockWriter.pushed], fun hn => absurd hn (by simp [BlockWriter.pushed]),
    fun cur hm g hg => ?_,
    fun c' hc' k hk hne => ⟨position, (hmem _).mpr rfl, ?_⟩, fun c' hc' k hk hne => ?_⟩
  · rw [List.mem_append, List.mem_singleton] at hm
    exact hm.elim (h.clean r) (by simp)
  · rw [(hmem cur).mp hm]
    exact ⟨c, hc, hle⟩
  · rw [(hmem cur).mp hm]
    exact hs
  · rw [(hmem cur).mp hm, heldRows, held_concat_accepted, BlockPosition.sortKey_eq, if_pos rfl,
      List.map_append, ← heldRows, ← hbuf]
    rfl
  · rw [(hmem cur).mp hm]
    rw [hw] at hg
    rcases hcw : w.current with _ | cur'
    · rw [(h.fresh hcw).2] at hg
      exact absurd hg (by simp)
    · rw [← hcur cur' hcw]
      exact h.written cur' hcw g hg
  · by_cases hkp : k = position.block
    · omega
    · rw [hheld k hkp] at hne
      obtain ⟨cur', hcm, hle'⟩ := h.held_le c' hc' k hk hne
      rwa [← hcur cur' hcm]
  · by_cases hkp : k = position.block
    · exact Or.inl ⟨position, (hmem _).mpr rfl, hkp⟩
    · rw [hheld k hkp] at hne
      rw [heldRows, hheld k hkp, hw]
      rcases h.closed c' hc' k hk hne with ⟨cur', hcm, heq⟩ | hwr
      · exact absurd (heq.trans (hcur cur' hcm)) hkp
      · exact Or.inr hwr

/-- The open group is written and the next one opened. -/
theorem SettledOk.advanced (h : SettledOk seed cut w effects) (hc : c ∈ cut)
    (hle : position.block ≤ c)
    (hs : ∀ p ∈ seed, p.block < position.block) {cur : BlockPosition} (hcur : w.current = some cur)
    (hlt : cur.block < position.block) :
    SettledOk seed cut (((w.withSchema schema).closed cur).pushed position row)
      (effects ++ [.wrote .settled cur w.buffer, .accepted .settled position event row]) := by
  -- nothing above the open group is held yet
  have hnil : held effects position.block = [] := by
    by_contra hne
    obtain ⟨cur', hcm, hle'⟩ := h.held_le c hc _ hle hne
    rw [Option.mem_unique hcm hcur] at hle'
    omega
  have hheld : ∀ k, held (effects ++ [.wrote .settled cur w.buffer,
      .accepted .settled position event row]) k
        = if k = position.block then [(event, row)] else held effects k := by
    intro k
    rw [List.append_cons, held_concat_accepted, held_concat_wrote, BlockPosition.sortKey_eq]
    by_cases hk : k = position.block
    · simp [hk, hnil]
    · simp [hk]
  have hw :
    writes (effects ++ [.wrote .settled cur w.buffer, .accepted .settled position event row])
      = writes effects ++ [(cur, w.buffer)] := by
    simp [writes, Effect.wrote?]
  have hmem : ∀ p, p ∈ (((w.withSchema schema).closed cur).pushed position row).current ↔
      p = position := by
    intro p
    rw [Option.mem_def, BlockWriter.pushed, BlockWriter.closed, BlockPosition.advance_none,
      Option.some.injEq, eq_comm]
  refine ⟨h.writer, fun r hm => ?_, fun _ => rfl, fun p hm => ?_, fun p hm => ?_, fun p hm => ?_,
    fun _ _ => by simp [BlockWriter.pushed], fun hn => absurd hn (by simp [BlockWriter.pushed]),
    fun p hm g hg => ?_,
    fun c' hc' k hk hne => ⟨position, (hmem _).mpr rfl, ?_⟩, fun c' hc' k hk hne => ?_⟩
  · rw [List.mem_append] at hm
    exact hm.elim (h.clean r) (by simp)
  · rw [(hmem p).mp hm]
    exact ⟨c, hc, hle⟩
  · rw [(hmem p).mp hm]
    exact hs
  · rw [(hmem p).mp hm, heldRows, hheld, if_pos rfl]
    rfl
  · rw [(hmem p).mp hm]
    rw [hw, List.mem_append, List.mem_singleton] at hg
    rcases hg with hg | rfl
    · exact Nat.lt_trans (h.written cur hcur g hg) hlt
    · exact hlt
  · rw [hheld] at hne
    split at hne
    · omega
    · obtain ⟨cur', hcm, hle'⟩ := h.held_le c' hc' k hk hne
      rw [Option.mem_unique hcm hcur] at hle'
      omega
  · by_cases hkp : k = position.block
    · exact Or.inl ⟨position, (hmem _).mpr rfl, hkp⟩
    · rw [hheld, if_neg hkp] at hne
      rw [heldRows, hheld, if_neg hkp, hw, List.mem_append, List.mem_singleton]
      rcases h.closed c' hc' k hk hne with ⟨cur', hcm, heq⟩ | hwr
      · rw [Option.mem_unique hcm hcur] at heq
        refine Or.inr (Or.inr ?_)
        rw [h.buffer cur hcur, heq]
      · exact Or.inr (Or.inl hwr)

end Push

/-- What the settled writer may do to the invariant: its effects are safe, leave the window's keys
alone and write at most up to the cut. -/
theorem BackfillInv.settled_effects {s : Pipeline σ ρ BlockPosition E}
    (h : BackfillInv seed cut tip depth s) {settled : BlockWriter BlockPosition} {store : σ}
    {record : ρ} {xs : List (Effect BlockPosition E)}
    (hsafe : Always (Safe seed) (s.io.effects ++ xs))
    (hx : ∀ x ∈ xs, (∀ p rows, x ≠ .wrote .window p rows) ∧ (∀ r, x ≠ .halted .window r) ∧
      ∀ g, x.wrote? = some g → ∃ c ∈ cut, g.1.block ≤ c)
    (hheld : ∀ k, held (s.io.effects ++ xs) k = held s.io.effects k ∨
      (∃ c ∈ cut, k ≤ c) ∧ ∀ p ∈ seed, p.block < k)
    (hset : settled.core.healthy = true → SettledOk seed cut settled (s.io.effects ++ xs))
    (hwm : ∀ p ∈ settled.watermark, ∃ f ∈ windowSeed seed cut, p.block ≤ f) :
    BackfillInv seed cut tip depth
      { s with settled, io := ⟨store, record, s.io.effects ++ xs⟩ } := by
  refine ⟨hsafe, fun p rows hm => ?_, fun g hg => ?_, fun k hne => ?_, hset, hwm, fun hw => ?_,
    h.window_writer, h.flushed, h.head, h.depth_eq⟩
  · rcases List.mem_append.mp hm with hm | hm
    · exact h.no_window p rows hm
    · exact (hx _ hm).1 p rows rfl
  · rw [writes_append, List.mem_append] at hg
    rcases hg with hg | hg
    · exact h.written g hg
    · obtain ⟨x, hxm, hxg⟩ := List.mem_filterMap.mp hg
      exact (hx x hxm).2.2 g hxg
  · rcases hheld k with heq | ⟨-, hk⟩
    · rw [heq] at hne
      exact h.above_seed k hne
    · exact hk
  · obtain ⟨hb, hclean⟩ := h.window hw
    refine ⟨hb.frame fun k hk => (hheld k).resolve_right ?_, fun r hm => ?_⟩
    · rintro ⟨⟨c, hc, hle⟩, -⟩
      obtain ⟨f, hf, hcf⟩ := le_windowSeed_of_cut seed hc
      rw [h.flushed] at hk
      have := hk f hf
      omega
    · rcases List.mem_append.mp hm with hm | hm
      · exact hclean r hm
      · exact (hx _ hm).2.1 r rfl

/-- What a window may do to the invariant during the backfill: it writes nothing and takes only keys
above the cut. -/
theorem BackfillInv.window_effects {s : Pipeline σ ρ BlockPosition E}
    (h : BackfillInv seed cut tip depth s) {window : ConfirmationWindow BlockPosition} {record : ρ}
    {x : Effect BlockPosition E} (hsafe : ∀ past, Safe seed past x) (hx : x.wrote? = none)
    (hr : ∀ r, x ≠ .halted .settled r)
    (hheld : ∀ k, held (s.io.effects ++ [x]) k = held s.io.effects k ∨
      (∀ c ∈ cut, c < k) ∧ ∀ p ∈ seed, p.block < k)
    (hwin : window.core.healthy = true → s.window.core.healthy = true ∧
      (∀ r, x ≠ .halted .window r) ∧ Buffered window (s.io.effects ++ [x]))
    (hwriter : window.core.writer = .window) (hfl : window.flushed = s.window.flushed)
    (hhead : ∀ h ∈ window.head, h ≤ tip) (hdepth : window.depth = depth) :
    BackfillInv seed cut tip depth
      { s with window, io := ({ s.io with record } : Io σ ρ BlockPosition E).emit x } := by
  have hw : writes (s.io.effects ++ [x]) = writes s.io.effects := by
    rw [writes_append]
    simp [writes, hx]
  refine ⟨h.safe.concat (hsafe _), fun p rows hm => ?_, fun g hg => ?_, fun k hne => ?_,
    fun hs => ?_, h.watermark, fun hwh => ?_, hwriter, hfl.trans h.flushed, hhead, hdepth⟩
  · simp only [Io.emit_effects, List.mem_append, List.mem_singleton] at hm
    rcases hm with hm | rfl
    · exact h.no_window p rows hm
    · exact absurd hx (by simp [Effect.wrote?])
  · rw [Io.emit_effects, hw] at hg
    exact h.written g hg
  · rw [Io.emit_effects] at hne
    rcases hheld k with heq | ⟨-, hk⟩
    · rw [heq] at hne
      exact h.above_seed k hne
    · exact hk
  · refine (h.settled hs).frame (fun c hc k hk => (hheld k).resolve_right ?_) hx hr
    rintro ⟨hck, -⟩
    have := hck c hc
    omega
  · obtain ⟨hold, hxr, hb⟩ := hwin hwh
    refine ⟨hb, fun r hm => ?_⟩
    simp only [Io.emit_effects, List.mem_append, List.mem_singleton] at hm
    exact hm.elim ((h.window hold).2 r) fun hm => hxr r hm.symm

/-- Writing an open group moves the watermark no further than the window's flushed mark. -/
theorem watermark_closed {w : BlockWriter BlockPosition} {effects : List (Effect BlockPosition E)}
    (h : SettledOk seed cut w effects)
    (hwm : ∀ p ∈ w.watermark, ∃ f ∈ windowSeed seed cut, p.block ≤ f) {cur : BlockPosition}
    (hcur : cur ∈ w.current) :
    ∀ p ∈ (w.closed cur).watermark, ∃ f ∈ windowSeed seed cut, p.block ≤ f := by
  intro p hp
  rw [BlockWriter.closed, Option.mem_def, Option.some.injEq] at hp
  subst hp
  obtain ⟨c', hc', hle'⟩ := h.current_le cur hcur
  obtain ⟨f, hf, hcf⟩ := le_windowSeed_of_cut seed hc'
  refine ⟨f, hf, ?_⟩
  rcases hw : w.watermark with _ | m
  · simp only [BlockPosition.advance_none]
    omega
  · obtain ⟨f', hf', hmf⟩ := hwm m hw
    rw [Option.mem_unique hf' hf] at hmf
    simp only [BlockPosition.advance_some]
    omega

/-- The seam: the absorbed watermark does not move the flushed mark, and everything held up to it is
written. -/
theorem BackfillInv.liveOk {s : Pipeline σ ρ BlockPosition E} (h : BackfillInv seed cut tip depth s)
    (hh : s.window.core.healthy = true) {effects : List (Effect BlockPosition E)}
    {watermark : Option BlockPosition} (hsafe : Always (Safe seed) effects)
    (hclean : ∀ writer r, .halted writer r ∉ effects) (hheld : held effects = held s.io.effects)
    (hwritten : ∀ g ∈ writes effects, ∃ c ∈ cut, g.1.block ≤ c)
    (hcomplete : ∀ c ∈ cut, ∀ k ≤ c, held effects k ≠ [] →
      (⟨k⟩, heldRows effects k) ∈ writes effects)
    (hwm : ∀ p ∈ watermark, ∃ f ∈ windowSeed seed cut, p.block ≤ f) :
    LiveOk seed (s.window.absorb watermark) effects := by
  obtain ⟨hb, -⟩ := h.window hh
  -- what the settled writer has reached is at or below the seed of the window
  have hfl : (s.window.absorb watermark).flushed = windowSeed seed cut := by
    rcases watermark with _ | p
    · exact h.flushed
    · obtain ⟨f, hf, hle⟩ := hwm p rfl
      rw [Option.mem_def] at hf
      simp only [absorb, h.flushed, hf, Option.elim_some, BlockPosition.sortKey_eq]
      rw [Nat.max_eq_left hle]
  refine ⟨hsafe, hclean, fun p hp => ?_, fun g hg => ?_, fun f hf k hk hne => ?_,
    ⟨?_, fun k p hp => ?_, fun k hk => ?_, fun k p hp => ?_⟩⟩
  · rw [hfl]
    exact le_windowSeed_of_seed hp
  · obtain ⟨c, hc, hle⟩ := hwritten g hg
    obtain ⟨f, hf, hcf⟩ := le_windowSeed_of_cut seed hc
    rw [hfl]
    exact ⟨f, hf, Nat.le_trans hle hcf⟩
  · rw [hfl] at hf
    rcases windowSeed_cases hf with ⟨p, hp, rfl⟩ | ⟨c, hc, rfl⟩
    · have := h.above_seed k (by rwa [← hheld]) p hp
      omega
    · exact hcomplete f hc k hk hne
  · rw [absorb_core]
    exact hb.writer
  · rw [absorb_pending] at hp
    rw [hfl, ← h.flushed]
    exact hb.above k p hp
  · rw [hfl, ← h.flushed] at hk
    rw [heldRows, hheld, ← heldRows, ← hb.rows k hk, rowsAt, absorb_pending, rowsAt]
  · rw [absorb_pending] at hp
    rw [absorb_core]
    exact hb.schema k p hp

section Step

variable [Store σ BlockPosition] [RecordOps ρ E]

omit [RecordOps ρ E] in
/-- No group is buried, so nothing is flushed. -/
theorem flushMatured_of_unburied {w : ConfirmationWindow BlockPosition}
    (io : Io σ ρ BlockPosition E)
    (h : ∀ h ∈ w.head, ∀ (k : Nat) p, w.pending[k]? = some p → h < saturatingAdd u64Max k w.depth) :
    w.flushMatured io = (w, io) := by
  unfold flushMatured
  rcases hh : w.head with _ | head
  · rfl
  · have hnil : w.matured head = [] := by
      rw [List.eq_nil_iff_forall_not_mem]
      intro k hk
      obtain ⟨⟨p, hp⟩, hle⟩ := mem_matured.mp hk
      have := h head hh k p hp
      omega
    simp only [hnil, flushLoop]

/-- One settled item of the backfill. -/
theorem BackfillInv.settled_step {s : Pipeline σ ρ BlockPosition E}
    (h : BackfillInv seed cut tip depth s) {position : BlockPosition} (event : E) {c : Nat}
    (hc : c ∈ cut) (hle : position.block ≤ c) (hs : ∀ p ∈ seed, p.block < position.block) :
    BackfillInv seed cut tip depth
      { s with
        settled := (s.settled.record s.io position event).1
        io := (s.settled.record s.io position event).2.1 } := by
  have hstep := BlockWriter.record_recorded rfl s.settled s.io position event
  have hhalt : ∀ r, Safe seed s.io.effects (.halted .settled r) := fun _ => h.no_window
  have hhaltx : ∀ r, ∀ x ∈ [(.halted .settled r : Effect BlockPosition E)],
      (∀ p rows, x ≠ .wrote .window p rows) ∧ (∀ r, x ≠ .halted .window r) ∧
        ∀ g, x.wrote? = some g → ∃ c ∈ cut, g.1.block ≤ c := by
    intro r x hx
    rw [List.mem_singleton.mp hx]
    simp [Effect.wrote?]
  -- an accepted event is held at its own height, which the cut covers
  have hacc : ∀ row k, held (s.io.effects ++ [.accepted .settled position event row]) k
      = held s.io.effects k ∨ (∃ c ∈ cut, k ≤ c) ∧ ∀ p ∈ seed, p.block < k := by
    intro row k
    rw [held_concat_accepted, BlockPosition.sortKey_eq]
    by_cases hk : k = position.block
    · exact Or.inr ⟨⟨c, hc, hk ▸ hle⟩, hk ▸ hs⟩
    · exact Or.inl (if_neg hk)
  generalize s.settled.record s.io position event = r at hstep
  cases hstep with
  | unhealthy hh => exact h
  | encode hh e record he =>
    rw [(h.settled hh).writer]
    exact h.settled_effects (h.safe.concat (hhalt _)) (hhaltx _) (fun k => Or.inl (by simp))
      (fun hc => absurd hc (by simp [BlockWriter.halted])) h.watermark
  | unordered hh row schema record he cur hcur hlt =>
    rw [(h.settled hh).writer]
    exact h.settled_effects (h.safe.concat (hhalt _)) (hhaltx _) (fun k => Or.inl (by simp))
      (fun hc => absurd hc (by simp [BlockWriter.halted])) h.watermark
  | write hh row schema record he cur hcur hlt e store hw =>
    rw [(h.settled hh).writer]
    exact h.settled_effects (h.safe.concat (hhalt _)) (hhaltx _) (fun k => Or.inl (by simp))
      (fun hc => absurd hc (by simp [BlockWriter.halted])) h.watermark
  | «extends» hh row schema record he hcur =>
    exact h.settled_effects (h.safe.concat trivial) (by simp [Effect.wrote?]) (hacc row)
      (fun _ => (h.settled hh).pushed event row schema hc hle hs hcur) h.watermark
  | advances hh row schema record he cur hcur hlt store hw =>
    have hset := h.settled hh
    rw [hset.writer]
    refine h.settled_effects ?_ ?_ (fun k => ?_)
      (fun _ => hset.advanced event row schema hc hle hs hcur hlt) fun p hp => ?_
    · -- the group that the event closes was complete when it was written
      have hw : Safe seed s.io.effects (.wrote .settled cur s.settled.buffer) :=
        hset.writeSafe hcur
      rw [List.append_cons]
      exact (h.safe.concat hw).concat trivial
    · intro x hx
      simp only [List.mem_cons, List.not_mem_nil, or_false] at hx
      rcases hx with rfl | rfl
      · refine ⟨by simp, by simp, fun g hg => ?_⟩
        rw [← Option.some.inj hg]
        exact hset.current_le cur hcur
      · simp [Effect.wrote?]
    · rw [List.append_cons]
      have := hacc row k
      rw [held_concat_accepted] at this ⊢
      rwa [held_concat_wrote]
    · exact watermark_closed hset h.watermark hcur p hp

/-- A backfill-tail item is buffered, and nothing is flushed yet. -/
theorem BackfillInv.recordSeeded_cases {s : Pipeline σ ρ BlockPosition E}
    (h : BackfillInv seed cut tip depth s)
    (hbury : ∀ k, (∀ c ∈ cut, c < k) → k ≤ tip → tip < saturatingAdd u64Max k depth)
    {position : BlockPosition} (event : E) (hc : ∀ c ∈ cut, c < position.block)
    (htip : position.block ≤ tip) :
    (s.window.core.healthy = false ∧
      s.window.recordSeeded s.io position event = (s.window, s.io, true)) ∨
    (s.window.core.healthy = true ∧
      ((∃ b ∈ s.window.head, position.block < b) ∨
        ∃ e record, RecordOps.encode s.io.record event = (.error e, record)) ∧
      ∃ record reason, s.window.recordSeeded s.io position event
        = (s.window.halted, ({ s.io with record } : Io σ ρ BlockPosition E).emit
            (.halted .window reason), true)) ∨
    (s.window.core.healthy = true ∧ (∀ b ∈ s.window.head, b ≤ position.block) ∧
      ∃ row schema record, RecordOps.encode s.io.record event = (.ok row, record) ∧
        s.window.recordSeeded s.io position event
          = (((s.window.withSchema schema).acceptSeeded { s.io with record } position event row).1,
            ({ s.io with record } : Io σ ρ BlockPosition E).emit
              (.accepted .window position event row), true)) := by
  rcases s.window.recordSeeded_cases rfl s.io position event with
    ⟨hh, he⟩ | ⟨hh, b, hb, hlt, he⟩ | ⟨hh, -, e, record, hr, he⟩ |
    ⟨hh, hle, row, schema, record, hr, he⟩
  · exact Or.inl ⟨hh, he⟩
  · rw [(h.window hh).1.writer] at he
    exact Or.inr (Or.inl ⟨hh, Or.inl ⟨b, hb, hlt⟩, s.io.record, _, he⟩)
  · rw [(h.window hh).1.writer] at he
    exact Or.inr (Or.inl ⟨hh, Or.inr ⟨e, record, hr⟩, record, _, he⟩)
  · refine Or.inr (Or.inr ⟨hh, hle, row, schema, record, hr, ?_⟩)
    rw [he, flushMatured_of_unburied]
    · intro b hb k p hp
      rw [acceptSeeded_head, Option.mem_def, Option.some.injEq, BlockPosition.sortKey_eq] at hb
      have hdepth : ((s.window.withSchema schema).acceptSeeded { s.io with record } position event
          row).1.depth = depth := h.depth_eq
      rw [hdepth]
      have hbt : b ≤ tip := by
        rw [← hb]
        rcases hsh : s.window.head with _ | b'
        · simp only [withSchema, hsh, Option.elim_none]
          exact htip
        · have := h.head b' hsh
          simp only [withSchema, hsh, Option.elim_some]
          omega
      -- every pending key is above the cut, hence not buried under the tip
      have hck : ∀ c ∈ cut, c < k := by
        rw [acceptSeeded_getElem?] at hp
        split at hp
        · rename_i hk
          rw [hk]
          exact hc
        · intro c hcm
          obtain ⟨f, hfm, hcf⟩ := le_windowSeed_of_cut seed hcm
          rw [← h.flushed] at hfm
          exact Nat.lt_of_le_of_lt hcf (((h.window hh).1.above k p hp).1 f hfm)
      refine Nat.lt_of_le_of_lt hbt ?_
      by_cases hkt : k ≤ tip
      · exact hbury k hck hkt
      · have := hbury position.block hc htip
        unfold saturatingAdd at this ⊢
        omega

omit [Store σ BlockPosition] [RecordOps ρ E] in
/-- Buffering a backfill-tail event keeps the pending map in step with what is held. -/
theorem Buffered.acceptSeeded {w : ConfirmationWindow BlockPosition} (io : Io σ ρ BlockPosition E)
    (h : Buffered w io.effects) {position : BlockPosition} (event : E) (row : Row)
    (hf : ∀ f ∈ w.flushed, f < position.block) (hs : w.core.schema.isSome) :
    Buffered (w.acceptSeeded io position event row).1
      (io.effects ++ [.accepted .window position event row]) := by
  refine ⟨h.writer, fun k p hp => ?_, fun k hk => ?_, fun _ _ _ => hs⟩
  · rw [acceptSeeded_getElem?, BlockPosition.sortKey_eq] at hp
    split at hp
    · rename_i hk
      subst hk
      refine ⟨hf, ?_⟩
      rw [← Option.some.inj hp]
      rcases hq : w.pending[position.block]? with _ | q
      · rfl
      · have := (h.above _ q hq).2
        simp [seededGroup, this]
    · exact h.above k p hp
  · rw [rowsAt_acceptSeeded, heldRows, held_concat_accepted]
    have := h.rows k hk
    split
    · rw [List.map_append, ← heldRows, ← this]
      rfl
    · rw [← heldRows, ← this]

/-- One backfill-tail item. -/
theorem BackfillInv.window_step {s : Pipeline σ ρ BlockPosition E}
    (h : BackfillInv seed cut tip depth s)
    (hbury : ∀ k, (∀ c ∈ cut, c < k) → k ≤ tip → tip < saturatingAdd u64Max k depth)
    {position : BlockPosition} (event : E) (hc : ∀ c ∈ cut, c < position.block)
    (htip : position.block ≤ tip) (hs : ∀ p ∈ seed, p.block < position.block) :
    BackfillInv seed cut tip depth
      { s with
        window := (s.window.recordSeeded s.io position event).1
        io := (s.window.recordSeeded s.io position event).2.1 } := by
  rcases h.recordSeeded_cases hbury event hc htip with
    ⟨hh, he⟩ | ⟨hh, -, record, reason, he⟩ | ⟨hh, -, row, schema, record, -, he⟩
  · rw [he]
    exact h
  · rw [he]
    exact h.window_effects (fun _ => trivial) rfl (by simp) (fun k => Or.inl (by simp))
      (fun hc => absurd hc (by simp [ConfirmationWindow.halted])) h.window_writer rfl h.head
        h.depth_eq
  · rw [he]
    have hf : ∀ f ∈ s.window.flushed, f < position.block := by
      rw [h.flushed]
      exact fun f hf => lt_of_windowSeed hf hs hc
    have hbuf :=
      Buffered.acceptSeeded { s.io with record } ((h.window hh).1.withSchema schema) event
      row hf rfl
    refine h.window_effects (fun _ => trivial) rfl (by simp) (fun k => ?_)
      (fun _ => ⟨hh, by simp, hbuf⟩) hbuf.writer rfl (fun b hb => ?_) h.depth_eq
    · rw [held_concat_accepted, BlockPosition.sortKey_eq]
      by_cases hk : k = position.block
      · exact Or.inr ⟨hk ▸ hc, hk ▸ hs⟩
      · exact Or.inl (if_neg hk)
    · rw [acceptSeeded_head, Option.mem_def, Option.some.injEq, BlockPosition.sortKey_eq] at hb
      rw [← hb]
      rcases hsh : s.window.head with _ | b'
      · simp only [withSchema, hsh, Option.elim_none]
        exact htip
      · have := h.head b' hsh
        simp only [withSchema, hsh, Option.elim_some]
        omega

/-- One item of the backfill. -/
theorem BackfillInv.step {s : Pipeline σ ρ BlockPosition E} (h : BackfillInv seed cut tip depth s)
    (hbury : ∀ k, (∀ c ∈ cut, c < k) → k ≤ tip → tip < saturatingAdd u64Max k depth)
    {item : BlockPosition × E} (htip : item.1.block ≤ tip)
    (hs : ∀ p ∈ seed, p.block < item.1.block) :
    BackfillInv seed cut tip depth (s.backfillStep cut item) := by
  obtain ⟨position, event⟩ := item
  by_cases hc : ∃ c ∈ cut, position.block ≤ c
  · obtain ⟨c, hc, hle⟩ := hc
    rw [s.backfillStep_of_le event hc hle]
    exact (h.settled_step event hc hle hs).deliver position event _
  · have hlt : ∀ c ∈ cut, c < position.block := fun c hcm =>
      Nat.lt_of_not_le fun hle => hc ⟨c, hcm, hle⟩
    rw [s.backfillStep_of_lt event hlt]
    exact (h.window_step hbury event hlt htip hs).deliver position event _

omit [RecordOps ρ E] in
/-- The end of the backfill establishes the invariant of the live stream. -/
theorem BackfillInv.settle {s : Pipeline σ ρ BlockPosition E}
    (h : BackfillInv seed cut tip depth s) : LiveInv seed s.settle := by
  unfold Pipeline.settle LiveInv
  cases hh : s.settled.core.healthy with
  | false =>
    have : s.settled.finish s.io = (s.settled, s.io) := by simp [BlockWriter.finish, hh]
    rw [this]
    simp only [hh, Bool.false_eq_true, if_false, halt, failWith, GapFreeWriter.fail,
      h.window_writer]
    exact ⟨h.safe.concat trivial, fun hc => absurd hc (by simp)⟩
  | true =>
    have hset := h.settled hh
    have hstep := BlockWriter.finish_finished s.settled s.io hset.schema
    generalize s.settled.finish s.io = r at hstep
    cases hstep with
    | unhealthy hf => exact absurd hh (by simp [hf])
    | empty _ hcur =>
      simp only [hh, if_true, absorb_core]
      refine ⟨h.safe, fun hw => h.liveOk hw h.safe (fun wr r => ?_) rfl h.written
        -- a writer that has nothing open has written all it was given
        (fun c hc k hk hne => ?_) h.watermark⟩
      · cases wr
        · exact hset.clean r
        · exact (h.window hw).2 r
      · obtain ⟨cur, hcm, -⟩ := hset.held_le c hc k hk hne
        rw [hcur] at hcm
        exact absurd hcm (by simp)
    | write _ cur hcur schema hs e store hw =>
      simp only [BlockWriter.halted, Bool.false_eq_true, if_false, halt, failWith,
        GapFreeWriter.fail,
        h.window_writer, hset.writer]
      have hsafe : Safe seed s.io.effects (.halted .settled (.write e)) := h.no_window
      exact ⟨(h.safe.concat hsafe).concat trivial, fun hc => absurd hc (by simp)⟩
    | wrote _ cur hcur schema hs store hw =>
      have hwr : Safe seed s.io.effects (.wrote .settled cur s.settled.buffer) :=
        hset.writeSafe hcur
      have hsafe := h.safe.concat hwr
      have hws : writes (s.io.effects ++ [.wrote .settled cur s.settled.buffer])
          = writes s.io.effects ++ [(cur, s.settled.buffer)] := by
        simp [writes, Effect.wrote?]
      have hhealthy : (s.settled.closed cur).core.healthy = true := hh
      simp only [hhealthy, if_true, absorb_core, hset.writer, Io.emit_effects]
      refine ⟨hsafe, fun hw => h.liveOk hw hsafe (fun wr r hm => ?_) (by simp) (fun g hg => ?_)
        (fun c hc k hk hne => ?_) (watermark_closed hset h.watermark hcur)⟩
      · rw [List.mem_append, List.mem_singleton] at hm
        rcases hm with hm | hm
        · cases wr
          · exact hset.clean r hm
          · exact (h.window hw).2 r hm
        · exact absurd hm (by simp)
      · rw [hws, List.mem_append, List.mem_singleton] at hg
        rcases hg with hg | rfl
        · exact h.written g hg
        · exact hset.current_le cur hcur
      · -- a settled height is in the group just written, or was written before
        rw [hws, List.mem_append, List.mem_singleton]
        simp only [heldRows, held_concat_wrote] at hne ⊢
        rcases hset.closed c hc k hk hne with ⟨cur', hcm, rfl⟩ | hk
        · rw [Option.mem_unique hcm hcur]
          exact Or.inr (by rw [hset.buffer cur hcur])
        · exact Or.inl hk

omit [Store σ BlockPosition] [RecordOps ρ E] in
theorem BackfillInv.start (store : σ) (record : ρ) :
    BackfillInv (E := E) seed cut tip depth (Pipeline.start store record depth cut seed) := by
  have hfl : (Pipeline.start (E := E) store record depth cut seed).window.flushed
      = windowSeed seed cut := by
    rcases cut with _ | c <;> rcases seed with _ | p <;> rfl
  refine ⟨Always.nil, fun _ _ hm => ?_, fun _ hg => ?_, fun _ hne => absurd rfl hne, fun _ => ?_,
    fun p hp => le_windowSeed_of_seed hp, fun _ => ⟨⟨rfl, fun k p hp => ?_, fun k _ => ?_,
      fun k p hp => ?_⟩, fun _ hm => ?_⟩, rfl, hfl, fun _ hb => ?_, rfl⟩
  · exact absurd hm (by simp [Pipeline.start])
  · exact absurd hg (by simp [Pipeline.start, writes])
  · exact ⟨rfl, by simp [Pipeline.start], by simp [Pipeline.start, BlockWriter.new],
      by simp [Pipeline.start, BlockWriter.new], by simp [Pipeline.start, BlockWriter.new],
      by simp [Pipeline.start, BlockWriter.new], by simp [Pipeline.start, BlockWriter.new],
      fun _ => ⟨rfl, rfl⟩, by simp [Pipeline.start, BlockWriter.new], fun _ _ _ _ hne =>
        absurd rfl hne,
      fun _ _ _ _ hne => absurd rfl hne⟩
  · exact absurd hp (by simp [Pipeline.start, ConfirmationWindow.new])
  · simp [Pipeline.start, ConfirmationWindow.new, rowsAt]
  · exact absurd hp (by simp [Pipeline.start, ConfirmationWindow.new])
  · exact absurd hm (by simp [Pipeline.start])
  · exact absurd hb (by simp [Pipeline.start, ConfirmationWindow.new])

/-- Every effect of a block subscription is safe, whatever the live stream and whatever fails. -/
theorem safe_persistAndEmit (backfill : List (BlockPosition × E))
    (live : List (Indexed BlockPosition E)) (store : σ) (record : ρ)
    (hbury : ∀ k, (∀ c ∈ cut, c < k) → k ≤ tip → tip < saturatingAdd u64Max k depth)
    (htip : ∀ item ∈ backfill, item.1.block ≤ tip)
    (hseed : ∀ item ∈ backfill, ∀ p ∈ seed, p.block < item.1.block) :
    Always (Safe seed) (persistAndEmit backfill live store record depth cut seed).io.effects := by
  have hback : BackfillInv seed cut tip depth
      (backfill.foldl (Pipeline.backfillStep cut) (.start store record depth cut seed)) :=
    foldl_preserves _ (.start store record) fun s item hm h =>
      h.step hbury (htip item hm) (hseed item hm)
  exact (foldl_preserves (LiveInv seed) hback.settle fun s item _ h => h.liveStep item).1

end Step

end ArtemisLight
