import ArtemisLight.Persistence.Writer.Equiv.Ledger

/-!
# When the writers stay healthy

With a store that never fails and events that always encode, a writer of a block subscription halts
only on what the source reports: a backfill out of order, or a live item at or below the flushed
mark.
-/

namespace ArtemisLight

open ConfirmationWindow

variable {σ ρ E : Type}

/-- Nothing has halted. -/
def Clean (effects : List (Effect BlockPosition E)) : Prop :=
  ∀ writer r, .halted writer r ∉ effects

theorem Clean.concat {effects : List (Effect BlockPosition E)} (h : Clean effects)
    {x : Effect BlockPosition E} (hx : ∀ writer r, x ≠ .halted writer r) :
      Clean (effects ++ [x]) := by
  intro writer r hm
  rcases List.mem_append.mp hm with hm | hm
  · exact h writer r hm
  · exact hx writer r (List.mem_singleton.mp hm).symm

/-- Both writers are healthy and what they depend on is sound. -/
structure Steady (W : σ → Prop) (R : ρ → Prop) (depth : Nat) (s : Pipeline σ ρ BlockPosition E) :
    Prop where
  settled : s.settled.core.healthy = true
  window : s.window.core.healthy = true
  depth_eq : s.window.depth = depth
  store : W s.io.store
  record : R s.io.record
  clean : Clean s.io.effects

variable [Store σ BlockPosition] [RecordOps ρ E] {W : σ → Prop} {R : ρ → Prop} {D : E → Prop}
  {s : Pipeline σ ρ BlockPosition E} {depth : Nat}

/-! ### The flush loop -/

omit [RecordOps ρ E] in
theorem flush_reliable (hW : Reliable BlockPosition W) (core : GapFreeWriter)
    {io : Io σ ρ BlockPosition E}
    (hs : W io.store) (hc : Clean io.effects) (position : BlockPosition) (rows : List Row) :
    ∃ io', core.flush io position rows = (true, core, io') ∧ W io'.store ∧ io'.record = io.record ∧
      Clean io'.effects := by
  rcases hsch : core.schema with _ | schema
  · exact ⟨io, by simp [GapFreeWriter.flush, hsch], hs, rfl, hc⟩
  · obtain ⟨store, hw, hs'⟩ := hW io.store hs schema position rows
    exact ⟨({ io with store } : Io σ ρ _ E).emit (.wrote core.writer position rows),
      by simp [GapFreeWriter.flush, hsch, hw], hs', rfl, hc.concat (by simp)⟩

omit [RecordOps ρ E] in
theorem flushLoop_reliable (hW : Reliable BlockPosition W) : ∀ (bs : List Nat)
    (w : ConfirmationWindow BlockPosition) (io : Io σ ρ BlockPosition E), w.core.healthy = true →
    W io.store → Clean io.effects →
      (w.flushLoop io bs).1.core.healthy = true ∧ (w.flushLoop io bs).1.depth = w.depth ∧
        W (w.flushLoop io bs).2.store ∧
        (w.flushLoop io bs).2.record = io.record ∧ Clean (w.flushLoop io bs).2.effects ∧
        ∀ f ∈ (w.flushLoop io bs).1.flushed, f ∈ w.flushed ∨ f ∈ bs := by
  intro bs
  induction bs with
  | nil => exact fun w io hh hs hc => ⟨hh, rfl, hs, rfl, hc, fun f hf => Or.inl hf⟩
  | cons b bs ih =>
    intro w io hh hs hc
    unfold flushLoop
    rcases w.pending[b]? with _ | p
    · obtain ⟨h₁, hd, h₂, h₃, h₄, h₅⟩ := ih w io hh hs hc
      exact ⟨h₁, hd, h₂, h₃, h₄, fun f hf => (h₅ f hf).imp_right (List.mem_cons_of_mem b)⟩
    · obtain ⟨io', hfl, hs', hr', hc'⟩ := flush_reliable hW w.core hs hc p.position p.rows
      simp only [hfl]
      obtain ⟨h₁, hd, h₂, h₃, h₄, h₅⟩ := ih (w.finalize b p) io' hh hs' hc'
      refine ⟨h₁, hd, h₂, h₃.trans hr', h₄, fun f hf => ?_⟩
      rcases h₅ f hf with hf | hf
      · rcases hw : w.flushed with _ | g
        · simp only [finalize, hw, Option.elim_none, Option.mem_def, Option.some.injEq] at hf
          exact Or.inr (by rw [← hf]; exact List.mem_cons_self)
        · simp only [finalize, hw, Option.elim_some, Option.mem_def, Option.some.injEq] at hf
          rcases Nat.le_total g b with hle | hle
          · exact Or.inr (by rw [← hf, Nat.max_eq_right hle]; exact List.mem_cons_self)
          · exact Or.inl (by rw [← hf, Nat.max_eq_left hle]; rfl)
      · exact Or.inr (List.mem_cons_of_mem _ hf)

/-! ### The live stream -/

omit [Store σ BlockPosition] [RecordOps ρ E] in
theorem Clean.deliver {io : Io σ ρ BlockPosition E} (h : Clean io.effects)
    (position : BlockPosition)
    (event : E) (delivered : Bool) : Clean (io.deliver position event delivered).effects :=
  h.concat (by cases delivered <;> simp)

/-- A live event above the flushed mark keeps the writers healthy; a group is flushed only once it
is buried under the event. -/
theorem Steady.event (hW : Reliable BlockPosition W) (hR : Encodes D R) (h : Steady W R depth s)
    {position : BlockPosition} {event : E} (he : D event)
    (hf : ∀ f ∈ s.window.flushed, f < position.block) :
    Steady W R depth (s.liveStep (.event position event)) ∧
      ∀ f ∈ (s.liveStep (.event position event)).window.flushed, f ∈ s.window.flushed ∨
        saturatingAdd u64Max f depth ≤ position.block := by
  rw [Pipeline.liveStep_event]
  obtain ⟨row, r', henc, hr'⟩ := hR s.io.record h.record event he
  -- of the four outcomes of an event, only the accepting one is possible
  rcases s.window.record_cases rfl s.io position event with
    ⟨hh, -⟩ | ⟨-, ⟨f, hfm, hle⟩, -⟩ | ⟨-, -, e, record, hr, -⟩ |
    ⟨-, -, row, schema, record, w', io', d, hr, ha, hrec⟩
  · exact absurd h.window (by simp [hh])
  · have := hf f hfm
    exact absurd hle (by simp only [BlockPosition.sortKey_eq]; omega)
  · rw [henc] at hr
    exact absurd (Prod.mk.inj hr).1 (by simp)
  · rw [henc] at hr
    obtain ⟨-, rfl⟩ := Prod.mk.inj hr
    have hclean : Clean io'.effects := by
      rw [ha.effects]
      refine Clean.concat ?_ (by simp)
      split
      · exact h.clean.concat (by simp)
      · split
        · exact h.clean.concat (by simp)
        · rw [List.append_nil]
          exact h.clean
    have hw' : w'.core.healthy = true := by rw [ha.core]; exact h.window
    have hstore : W io'.store := by rw [ha.store]; exact h.store
    have hflush : w'.flushMatured io' = w'.flushLoop io' (w'.matured position.block) := by
      unfold flushMatured
      rw [ha.head]
      rfl
    obtain ⟨h₁, hd, h₂, h₃, h₄, h₅⟩ :=
      flushLoop_reliable hW (w'.matured position.block) w' io' hw' hstore hclean
    simp only [hrec, hflush]
    refine ⟨⟨h.settled, h₁, hd.trans (ha.depth.trans h.depth_eq), h₂, ?_,
      h₄.deliver position event d⟩, fun f hfm => ?_⟩
    · have hrec' : io'.record = r' := ha.record
      simp only [Io.deliver, Io.emit_record]
      rw [h₃, hrec']
      exact hr'
    · -- a height flushed now is buried under the event
      rcases h₅ f hfm with hfm | hfm
      · rw [ha.flushed] at hfm
        exact Or.inl hfm
      · have := (mem_matured.mp hfm).2
        rw [ha.depth] at this
        have hdepth : (s.window.withSchema schema).depth = depth := h.depth_eq
        rw [hdepth] at this
        exact Or.inr this

/-- A live event above the flushed mark is accepted, whereupon only groups below it are flushed. -/
theorem Steady.accepted {seed : Option BlockPosition} (hW : Reliable BlockPosition W)
    (hR : Encodes D R) (hdepth : 0 < depth) (h : Steady W R depth s) (hlive : LiveInv seed s)
    {position : BlockPosition} {event : E} (he : D event)
    (hf : ∀ f ∈ s.window.flushed, f < position.block) (hmax : position.block < u64Max) :
    ∃ row schema record w' io' delivered bs io'',
      RecordOps.encode s.io.record event = (.ok row, record) ∧
      Accepted (s.window.withSchema schema) { s.io with record } position event row w' io'
        delivered ∧
      LiveOk seed w' io'.effects ∧ (∀ b ∈ bs, b < position.block) ∧
      Flush w' io' bs (s.liveStep (.event position event)).window io'' ∧
      (s.liveStep (.event position event)).io = io''.deliver position event delivered := by
  have hhealthy := (h.event hW hR he hf).1.window
  rcases (hlive.2 h.window).event_cases h.window position event with
    ⟨-, hu, -⟩ | ⟨-, row, schema, record, w', io', d, bs, io'', henc, ha, hok, hbs, hfl, hio⟩
  · rw [hu] at hhealthy
    exact absurd hhealthy (by simp)
  · refine ⟨row, schema, record, w', io', d, bs, io'', henc, ha, hok, fun b hb => ?_, hfl, hio⟩
    have hle := hbs b hb
    rw [h.depth_eq] at hle
    unfold saturatingAdd at hle
    omega

/-- A retraction above the flushed mark keeps the writers healthy. -/
theorem Steady.retract (h : Steady W R depth s) {position : BlockPosition}
    (hf : ∀ f ∈ s.window.flushed, f < position.block) :
    Steady W R depth (s.liveStep (.retract position)) ∧
      (s.liveStep (.retract position)).window.flushed = s.window.flushed := by
  rw [Pipeline.liveStep_retract]
  rcases s.window.retract_cases rfl s.io position with
    ⟨hh, -⟩ | ⟨-, ⟨f, hfm, hle⟩, -⟩ | ⟨-, -, he⟩
  · exact absurd h.window (by simp [hh])
  · have := hf f hfm
    exact absurd hle (by simp only [BlockPosition.sortKey_eq]; omega)
  · simp only [he]
    exact ⟨⟨h.settled, h.window, h.depth_eq, h.store, h.record, h.clean.concat (by simp)⟩, rfl⟩

/-- A live item only adds effects. -/
theorem prefix_liveStep (s : Pipeline σ ρ BlockPosition E) (item : Indexed BlockPosition E) :
    s.io.effects <+: (s.liveStep item).io.effects := by
  rcases item with ⟨position, event⟩ | position
  · rw [Pipeline.liveStep_event]
    refine List.IsPrefix.trans ?_ (List.prefix_append _ _)
    rcases s.window.record_cases rfl s.io position event with
      ⟨-, he⟩ | ⟨-, -, he⟩ | ⟨-, -, e, record, -, he⟩ |
      ⟨-, -, row, schema, record, w', io', d, -, ha, he⟩
    · rw [he]
    · rw [he]
      exact List.prefix_append _ _
    · rw [he]
      exact List.prefix_append _ _
    · rw [he]
      obtain ⟨bs, -, hfl⟩ := w'.flushMatured_spec io' (by rw [ha.core]; exact fun _ _ _ => rfl)
      obtain ⟨fl, hfl, -⟩ := hfl.effects
      simp only [hfl, ha.effects, List.append_assoc]
      exact List.prefix_append _ _
  · rw [Pipeline.liveStep_retract]
    rcases s.window.retract_cases rfl s.io position with ⟨-, he⟩ | ⟨-, -, he⟩ | ⟨-, -, he⟩
    · rw [he]
    · rw [he]
      exact List.prefix_append _ _
    · rw [he]
      exact List.prefix_append _ _

/-- A live item at or below the flushed mark halts the window. -/
theorem halts_of_le (hh : s.window.core.healthy = true) {item : Indexed BlockPosition E}
    {key : Nat} (hitem : item = .retract ⟨key⟩ ∨ ∃ e, item = .event ⟨key⟩ e)
    (hf : ∃ f ∈ s.window.flushed, key ≤ f) : ∃ r, .halted s.window.core.writer r ∈
      (s.liveStep item).io.effects := by
  rcases hitem with rfl | ⟨e, rfl⟩
  · rw [Pipeline.liveStep_retract]
    rcases s.window.retract_cases rfl s.io ⟨key⟩ with ⟨hn, -⟩ | ⟨-, -, he⟩ | ⟨-, hlt, -⟩
    · exact absurd hh (by simp [hn])
    · exact ⟨.retracted ⟨key⟩ s.window.depth, by
        simp only [he, Io.emit_effects]
        exact List.mem_append_right _ (by simp)⟩
    · obtain ⟨f, hfm, hle⟩ := hf
      have := hlt f hfm
      simp only [BlockPosition.sortKey_eq] at this
      omega
  · rw [Pipeline.liveStep_event]
    rcases s.window.record_cases rfl s.io ⟨key⟩ e with
      ⟨hn, -⟩ | ⟨-, -, he⟩ | ⟨-, hlt, -⟩ | ⟨-, hlt, -⟩
    · exact absurd hh (by simp [hn])
    · exact ⟨.reobserved ⟨key⟩ s.window.depth, by
        simp only [he, Io.deliver, Io.emit_effects]
        exact List.mem_append_left _ (List.mem_append_right _ (by simp))⟩
    all_goals
      obtain ⟨f, hfm, hle⟩ := hf
      have := hlt f hfm
      simp only [BlockPosition.sortKey_eq] at this
      omega

/-! ### The backfill -/

section Backfill

variable {seed : Option BlockPosition} {cut : Option Nat} {tip : Nat}

/-- Neither writer has seen a key above `bound`. -/
structure UpTo (bound : Nat) (s : Pipeline σ ρ BlockPosition E) : Prop where
  current : ∀ cur ∈ s.settled.current, cur.block ≤ bound
  head : ∀ b ∈ s.window.head, b ≤ bound

omit [Store σ BlockPosition] [RecordOps ρ E] in
theorem UpTo.mono {bound bound' : Nat} (h : UpTo bound s) (hle : bound ≤ bound') : UpTo bound' s :=
  ⟨fun cur hc => Nat.le_trans (h.current cur hc) hle, fun b hb => Nat.le_trans (h.head b hb) hle⟩

/-- An item at or below the cut goes to the settled writer, whose writes succeed. -/
theorem Steady.settledStep (hW : Reliable BlockPosition W) (hR : Encodes D R)
    (h : Steady W R depth s) {position : BlockPosition} {event : E} (he : D event)
    (hle : UpTo position.block s) (hc : ∃ c ∈ cut, position.block ≤ c) :
    Steady W R depth (s.backfillStep cut (position, event)) ∧
      UpTo position.block (s.backfillStep cut (position, event)) := by
  obtain ⟨row, r', henc, hr'⟩ := hR s.io.record h.record event he
  obtain ⟨c, hc, hlec⟩ := hc
  rw [s.backfillStep_of_le event hc hlec]
  have hstep := BlockWriter.record_recorded rfl s.settled s.io position event
  generalize s.settled.record s.io position event = r at hstep
  cases hstep with
  | unhealthy hh => exact absurd h.settled (by simp [hh])
  | encode _ e record hr =>
    rw [henc] at hr
    exact absurd (Prod.mk.inj hr).1 (by simp)
  | unordered _ _ _ _ _ cur hcur hlt =>
    have := hle.current cur hcur
    simp only [BlockPosition.sortKey_eq] at hlt this
    omega
  | write _ _ schema _ _ cur _ _ e store hw =>
    obtain ⟨s', hw', -⟩ := hW s.io.store h.store schema cur s.settled.buffer
    rw [hw'] at hw
    exact absurd (Prod.mk.inj hw).1 (by simp)
  | «extends» _ row' schema record hr hcur =>
    rw [henc] at hr
    obtain ⟨-, rfl⟩ := Prod.mk.inj hr
    refine ⟨⟨h.settled, h.window, h.depth_eq, h.store, hr',
      Clean.deliver (h.clean.concat (by simp)) _ _ _⟩,
      fun cur hcm => ?_, hle.head⟩
    simp only [BlockWriter.pushed, BlockWriter.withSchema, Option.mem_def,
      Option.some.injEq] at hcm
    subst hcm
    rcases hs : s.settled.current with _ | cur
    · exact Nat.le_refl _
    · have := hle.current cur hs
      simp only [BlockPosition.advance_some] at this ⊢
      omega
  | advances _ row' schema record hr cur hcur _ store hw =>
    rw [henc] at hr
    obtain ⟨-, rfl⟩ := Prod.mk.inj hr
    obtain ⟨s', hw', hs'⟩ := hW s.io.store h.store schema cur s.settled.buffer
    rw [hw'] at hw
    obtain ⟨-, rfl⟩ := Prod.mk.inj hw
    have hclean : Clean (s.io.effects ++ [.wrote s.settled.core.writer cur s.settled.buffer,
        .accepted .settled position event row']) := by
      rw [show ∀ x y : Effect BlockPosition E, s.io.effects ++ [x, y] = s.io.effects ++ [x] ++ [y]
        from fun x y => by simp]
      exact (h.clean.concat (by simp)).concat (by simp)
    refine ⟨⟨h.settled, h.window, h.depth_eq, hs', hr', Clean.concat hclean (by simp)⟩,
      fun cur' hcm => ?_,
      hle.head⟩
    simp only [BlockWriter.pushed, BlockWriter.closed, Option.mem_def, Option.some.injEq,
      BlockPosition.advance_none] at hcm
    rw [← hcm]

/-- An item above the cut is buffered by the window, and nothing is written. -/
theorem Steady.windowStep (hR : Encodes D R) (h : Steady W R depth s)
    (hinv : BackfillInv seed cut tip depth s)
    (hbury : ∀ k, (∀ c ∈ cut, c < k) → k ≤ tip → tip < saturatingAdd u64Max k depth)
    {position : BlockPosition} {event : E} (htip : position.block ≤ tip) (he : D event)
    (hle : UpTo position.block s) (hlt : ∀ c ∈ cut, c < position.block) :
    Steady W R depth (s.backfillStep cut (position, event)) ∧
      UpTo position.block (s.backfillStep cut (position, event)) := by
  obtain ⟨row, r', henc, hr'⟩ := hR s.io.record h.record event he
  rw [s.backfillStep_of_lt event hlt]
  rcases hinv.recordSeeded_cases hbury event hlt htip with
    ⟨hh, -⟩ | ⟨-, hbad, -⟩ | ⟨-, -, row', schema, record, hr, hrec⟩
  · exact absurd h.window (by simp [hh])
  · rcases hbad with ⟨b, hb, hltb⟩ | ⟨e, record, hr⟩
    · have := hle.head b hb
      omega
    · rw [henc] at hr
      exact absurd (Prod.mk.inj hr).1 (by simp)
  · rw [henc] at hr
    obtain ⟨-, rfl⟩ := Prod.mk.inj hr
    simp only [hrec]
    refine ⟨⟨h.settled, h.window, h.depth_eq, h.store, hr',
      Clean.deliver (h.clean.concat (by simp)) _ _ _⟩,
      hle.current, fun b hb => ?_⟩
    rw [acceptSeeded_head, Option.mem_def, Option.some.injEq, BlockPosition.sortKey_eq] at hb
    rw [← hb]
    rcases hs : s.window.head with _ | b'
    · simp [withSchema, hs]
    · have := hle.head b' hs
      simp only [withSchema, hs, Option.elim_some] at this ⊢
      omega

/-- A backfill item in order keeps the writers healthy. -/
theorem Steady.backfillStep (hW : Reliable BlockPosition W) (hR : Encodes D R)
    (h : Steady W R depth s)
    (hinv : BackfillInv seed cut tip depth s)
    (hbury : ∀ k, (∀ c ∈ cut, c < k) → k ≤ tip → tip < saturatingAdd u64Max k depth)
    {item : BlockPosition × E} (htip : item.1.block ≤ tip) (he : D item.2)
    (hle : UpTo item.1.block s) :
    Steady W R depth (s.backfillStep cut item) ∧ UpTo item.1.block (s.backfillStep cut item) := by
  obtain ⟨position, event⟩ := item
  by_cases hc : ∃ c ∈ cut, position.block ≤ c
  · exact h.settledStep hW hR he hle hc
  · exact h.windowStep hR hinv hbury htip he hle fun c hcm =>
      Nat.lt_of_not_le fun hle => hc ⟨c, hcm, hle⟩

omit [RecordOps ρ E] in
/-- A backfill in order leaves the writers healthy, and the window's flushed mark where it
started. -/
theorem Steady.settle (hW : Reliable BlockPosition W) (h : Steady W R depth s)
    (hinv : BackfillInv seed cut tip depth s) :
    Steady W R depth s.settle ∧
      (∀ f ∈ s.settle.window.flushed, ∃ g ∈ windowSeed seed cut, f ≤ g) ∧
      ∀ g ∈ windowSeed seed cut, ∃ f ∈ s.settle.window.flushed, g ≤ f := by
  have hset := hinv.settled h.settled
  have habsorb : ∀ watermark : Option BlockPosition,
      (∀ p ∈ watermark, ∃ f ∈ windowSeed seed cut, p.block ≤ f) →
      (∀ f ∈ (s.window.absorb watermark).flushed, ∃ g ∈ windowSeed seed cut, f ≤ g) ∧
        ∀ g ∈ windowSeed seed cut, ∃ f ∈ (s.window.absorb watermark).flushed, g ≤ f := by
    intro watermark hwm
    refine ⟨fun f hf => ?_, fun g hg =>
      absorb_flushed_le watermark (by rw [hinv.flushed]; exact hg)⟩
    rcases watermark with _ | p
    · rw [absorb, hinv.flushed] at hf
      exact ⟨f, hf, Nat.le_refl f⟩
    · obtain ⟨g, hg, hle⟩ := hwm p rfl
      simp only [absorb, hinv.flushed, Option.mem_def.mp hg, Option.elim_some, Option.mem_def,
        Option.some.injEq, BlockPosition.sortKey_eq] at hf
      exact ⟨g, hg, by omega⟩
  have hdepth : ∀ watermark : Option BlockPosition, (s.window.absorb watermark).depth = depth :=
    fun watermark => by rw [← h.depth_eq]; rcases watermark with _ | p <;> rfl
  have hstep := BlockWriter.finish_finished s.settled s.io hset.schema
  -- the store is reliable, so the last group of the settled writer is written
  have hhealthy : (s.settled.finish s.io).1.core.healthy = true := by
    generalize s.settled.finish s.io = r at hstep
    cases hstep with
    | unhealthy hh => exact absurd h.settled (by simp [hh])
    | empty hh _ => exact hh
    | write _ cur _ schema _ e store hw =>
      obtain ⟨s', hw', -⟩ := hW s.io.store h.store schema cur s.settled.buffer
      rw [hw'] at hw
      exact absurd (Prod.mk.inj hw).1 (by simp)
    | wrote hh _ _ _ _ _ _ => exact hh
  rw [s.settle_of_healthy hhealthy]
  generalize s.settled.finish s.io = r at hstep hhealthy
  cases hstep with
  | unhealthy hh => exact absurd h.settled (by simp [hh])
  | empty _ _ =>
    exact ⟨⟨h.settled, by rw [absorb_core]; exact h.window, hdepth _, h.store, h.record, h.clean⟩,
      habsorb _ hinv.watermark⟩
  | write _ _ _ _ _ _ _ _ => exact absurd hhealthy (by simp [BlockWriter.halted])
  | wrote _ cur hcur schema _ store hw =>
    obtain ⟨s', hw', hs'⟩ := hW s.io.store h.store schema cur s.settled.buffer
    rw [hw'] at hw
    obtain ⟨-, rfl⟩ := Prod.mk.inj hw
    exact ⟨⟨h.settled, by rw [absorb_core]; exact h.window, hdepth _, hs', h.record,
      h.clean.concat (by simp)⟩,
      habsorb _ (watermark_closed hset hinv.watermark hcur)⟩

/-- The height of the last event. -/
def lastKey (events : List (BlockPosition × E)) : Nat := (events.getLast?).elim 0 fun x => x.1.block

/-- The induction rule of a backfill in order: the writers stay healthy on the way. -/
theorem steady_backfill_rule (hW : Reliable BlockPosition W) (hR : Encodes D R) {store : σ}
    (hs : W store) {record : ρ}
    (hr : R record) {backfill : List (BlockPosition × E)}
    (hbury : ∀ k, (∀ c ∈ cut, c < k) → k ≤ tip → tip < saturatingAdd u64Max k depth)
    (htip : ∀ item ∈ backfill, item.1.block ≤ tip) (hD : ∀ item ∈ backfill, D item.2)
    (hseed : ∀ item ∈ backfill, ∀ p ∈ seed, p.block < item.1.block)
    (hsorted : backfill.Pairwise fun x y => x.1.block ≤ y.1.block)
    {I : List (BlockPosition × E) → Pipeline σ ρ BlockPosition E → Prop}
    (hstart : I [] (Pipeline.start store record depth cut seed))
    (hstep : ∀ done item rest s, backfill = done ++ item :: rest →
      BackfillInv seed cut tip depth s → Steady W R depth s →
      Steady W R depth (s.backfillStep cut item) → I done s →
      I (done ++ [item]) (s.backfillStep cut item)) :
    BackfillInv seed cut tip depth (backfill.foldl (Pipeline.backfillStep cut)
      (Pipeline.start store record depth cut seed)) ∧
    Steady W R depth (backfill.foldl (Pipeline.backfillStep cut)
      (Pipeline.start store record depth cut seed)) ∧
    I backfill (backfill.foldl (Pipeline.backfillStep cut)
      (Pipeline.start store record depth cut seed)) := by
  have hinv := foldl_invariant (fun done s => (BackfillInv seed cut tip depth s ∧
      Steady W R depth s ∧ UpTo (lastKey done) s) ∧ I done s) (l := backfill)
      (f := Pipeline.backfillStep cut)
      ⟨⟨.start store record,
        ⟨rfl, rfl, rfl, hs, hr, fun _ _ hm => absurd hm (by simp [Pipeline.start])⟩,
        fun _ hm => absurd hm (by simp [Pipeline.start, BlockWriter.new]),
        fun _ hm => absurd hm (by simp [Pipeline.start, ConfirmationWindow.new])⟩, hstart⟩
      fun done item rest s hsplit hI => by
    obtain ⟨⟨hinv, hst, hup⟩, hI⟩ := hI
    have hm : item ∈ backfill := by rw [hsplit]; simp
    -- the events come in order, so none is below the last one
    have hbound : lastKey done ≤ item.1.block := by
      unfold lastKey
      rcases hl : done.getLast? with _ | x
      · exact Nat.zero_le _
      · rw [hsplit, List.pairwise_append] at hsorted
        exact hsorted.2.2 x (List.mem_of_getLast? hl) item (by simp)
    obtain ⟨hst', hup'⟩ := hst.backfillStep hW hR hinv hbury (htip item hm) (hD item hm)
      (hup.mono hbound)
    refine ⟨⟨hinv.step hbury (htip item hm) (hseed item hm), hst', ?_⟩,
      hstep done item rest s hsplit hinv hst hst' hI⟩
    rw [lastKey, List.getLast?_concat]
    exact hup'
  exact ⟨hinv.1.1, hinv.1.2.1, hinv.2⟩

/-- A backfill in order, to its end. -/
theorem steady_backfill (hW : Reliable BlockPosition W) (hR : Encodes D R) {store : σ}
    (hs : W store) {record : ρ}
    (hr : R record) {backfill : List (BlockPosition × E)}
    (hbury : ∀ k, (∀ c ∈ cut, c < k) → k ≤ tip → tip < saturatingAdd u64Max k depth)
    (htip : ∀ item ∈ backfill, item.1.block ≤ tip) (hD : ∀ item ∈ backfill, D item.2)
    (hseed : ∀ item ∈ backfill, ∀ p ∈ seed, p.block < item.1.block)
    (hsorted : backfill.Pairwise fun x y => x.1.block ≤ y.1.block) :
    Steady W R depth (backfill.foldl (Pipeline.backfillStep cut)
      (Pipeline.start store record depth cut seed)).settle ∧
    (∀ f ∈ (backfill.foldl (Pipeline.backfillStep cut)
      (Pipeline.start (E := E) store record depth cut seed)).settle.window.flushed,
        ∃ g ∈ windowSeed seed cut, f ≤ g) ∧
    ∀ g ∈ windowSeed seed cut, ∃ f ∈ (backfill.foldl (Pipeline.backfillStep cut)
      (Pipeline.start (E := E) store record depth cut seed)).settle.window.flushed, g ≤ f := by
  obtain ⟨hinv, hst, -⟩ := steady_backfill_rule hW hR hs hr hbury htip hD hseed hsorted
    (I := fun _ _ => True) trivial fun _ _ _ _ _ _ _ _ _ => trivial
  exact hst.settle hW hinv

end Backfill

end ArtemisLight
