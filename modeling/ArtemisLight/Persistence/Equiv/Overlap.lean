import ArtemisLight.Persistence.Equiv.Subscribe
import ArtemisLight.Persistence.Scripted
import ArtemisLight.Persistence.Writer.Equiv.Healthy

/-!
# The overlap of backfill and live stream

The live stream is opened before the tip is queried, so it may start below the tip.  Against a
source that never reorganises the writers stay healthy exactly when it re-delivers no event at or
below the stored position and none at or below the final cut.
-/

namespace ArtemisLight

variable {τ σ ρ E : Type}

section Live

variable [Store σ BlockPosition] [RecordOps ρ E] {W : σ → Prop} {R : ρ → Prop} {D : E → Prop}
  {depth : Nat}

/-- An ascending live stream above the flushed mark keeps the writers healthy. -/
theorem steady_live (hW : Reliable BlockPosition W) (hR : Encodes D R) (hdepth : 0 < depth)
    {live : List (BlockPosition × E)} (hD : ∀ x ∈ live, D x.2)
    (hsorted : live.Pairwise fun x y => x.1.block ≤ y.1.block)
    (hsmall : ∀ x ∈ live, x.1.block < u64Max) {s : Pipeline σ ρ BlockPosition E}
    (h : Steady W R depth s) (hf : ∀ f ∈ s.window.flushed, ∀ x ∈ live, f < x.1.block) :
    Steady W R depth ((asLive live).foldl Pipeline.liveStep s) := by
  induction live generalizing s with
  | nil => exact h
  | cons x live ih =>
    have hx : ∀ f ∈ s.window.flushed, f < x.1.block := fun f hfm => hf f hfm x (by simp)
    obtain ⟨hstep, hflushed⟩ := h.event hW hR (hD x (by simp)) hx
    refine ih (fun y hy => hD y (by simp [hy])) (List.pairwise_cons.mp hsorted).2
      (fun y hy => hsmall y (by simp [hy])) hstep fun f hfm y hy => ?_
    rcases hflushed f hfm with hfm | hle
    · exact hf f hfm y (by simp [hy])
    · -- a group flushed by this event lies below it, and the later events do not
      have hxy := List.rel_of_pairwise_cons hsorted hy
      have hx := hsmall x (by simp)
      unfold saturatingAdd at hle
      omega

theorem prefix_foldl_liveStep (items : List (Indexed BlockPosition E))
    (s : Pipeline σ ρ BlockPosition E) :
    s.io.effects <+: (items.foldl Pipeline.liveStep s).io.effects := by
  induction items generalizing s with
  | nil => exact List.prefix_refl _
  | cons item items ih => exact (prefix_liveStep s item).trans (ih (s.liveStep item))

/-- An ascending live stream above the seed and the cut keeps the writers healthy. -/
theorem steady_persistAndEmit {seed : Option BlockPosition} {cut : Option Nat} {tip : Nat}
    (hW : Reliable BlockPosition W) (hR : Encodes D R) (hdepth : 0 < depth) {store : σ}
    (hs : W store) {record : ρ}
    (hr : R record) {backfill live : List (BlockPosition × E)}
    (hbury : ∀ k, (∀ c ∈ cut, c < k) → k ≤ tip → tip < saturatingAdd u64Max k depth)
    (htip : ∀ x ∈ backfill, x.1.block ≤ tip)
    (hseed : ∀ x ∈ backfill, ∀ p ∈ seed, p.block < x.1.block)
    (hback : backfill.Pairwise fun x y => x.1.block ≤ y.1.block)
    (hsorted : live.Pairwise fun x y => x.1.block ≤ y.1.block)
    (hsmall : ∀ x ∈ live, x.1.block < u64Max) (hD : ∀ x ∈ backfill ++ live, D x.2)
    (habove : ∀ x ∈ live, (∀ p ∈ seed, p.block < x.1.block) ∧ ∀ c ∈ cut, c < x.1.block) :
    Steady W R depth (persistAndEmit backfill (asLive live) store record depth cut seed) := by
  obtain ⟨hsteady, hle, -⟩ := steady_backfill hW hR hs hr hbury htip
    (fun x hx => hD x (List.mem_append_left _ hx)) hseed hback
  refine steady_live hW hR hdepth (fun x hx => hD x (List.mem_append_right _ hx)) hsorted hsmall
    hsteady fun f hfm x hx => ?_
  obtain ⟨g, hg, hfg⟩ := hle f hfm
  exact Nat.lt_of_le_of_lt hfg (lt_of_windowSeed hg (habove x hx).1 (habove x hx).2)

/-- A run over a sorted backfill and an ascending live stream stays healthy exactly when the live
stream stays above the seed and the cut. -/
theorem clean_persistAndEmit {seed : Option BlockPosition} {cut : Option Nat} {tip : Nat}
    (hW : Reliable BlockPosition W) (hR : Encodes D R) (hdepth : 0 < depth) {store : σ}
    (hs : W store) {record : ρ}
    (hr : R record) {backfill live : List (BlockPosition × E)}
    (hbury : ∀ k, (∀ c ∈ cut, c < k) → k ≤ tip → tip < saturatingAdd u64Max k depth)
    (htip : ∀ x ∈ backfill, x.1.block ≤ tip)
    (hseed : ∀ x ∈ backfill, ∀ p ∈ seed, p.block < x.1.block)
    (hback : backfill.Pairwise fun x y => x.1.block ≤ y.1.block)
    (hsorted : live.Pairwise fun x y => x.1.block ≤ y.1.block)
    (hsmall : ∀ x ∈ live, x.1.block < u64Max) (hD : ∀ x ∈ backfill ++ live, D x.2) :
    Clean (persistAndEmit backfill (asLive live) store record depth cut seed).io.effects ↔
      ∀ x ∈ live, (∀ p ∈ seed, p.block < x.1.block) ∧ ∀ c ∈ cut, c < x.1.block := by
  obtain ⟨hsteady, -, hge⟩ := steady_backfill hW hR hs hr hbury htip
    (fun x hx => hD x (List.mem_append_left _ hx)) hseed hback
  constructor
  · intro hclean
    unfold persistAndEmit at hclean
    by_contra hbad
    rw [not_forall] at hbad
    obtain ⟨x, hx⟩ := hbad
    rw [Classical.not_imp] at hx
    obtain ⟨hxm, hx⟩ := hx
    -- some flushed mark lies at or above `x`, hence at or above the first live event
    obtain ⟨g, hg, hxg⟩ : ∃ g ∈ windowSeed seed cut, x.1.block ≤ g := by
      by_contra hno
      have hlt : ∀ g ∈ windowSeed seed cut, g < x.1.block := fun g hg =>
        Nat.lt_of_not_le fun hle => hno ⟨g, hg, hle⟩
      refine hx ⟨fun p hp => ?_, fun c hc => ?_⟩
      · obtain ⟨g, hg, hpg⟩ : ∃ g ∈ windowSeed seed cut, p.block ≤ g := le_windowSeed_of_seed hp
        exact Nat.lt_of_le_of_lt hpg (hlt g hg)
      · obtain ⟨g, hg, hcg⟩ := le_windowSeed_of_cut seed hc
        exact Nat.lt_of_le_of_lt hcg (hlt g hg)
    obtain ⟨f, hfm, hgf⟩ := hge g hg
    rcases live with _ | ⟨y, live⟩
    · exact absurd hxm (by simp)
    · have hyx : y.1.block ≤ x.1.block := by
        rcases List.mem_cons.mp hxm with rfl | hxm
        · exact Nat.le_refl _
        · exact List.rel_of_pairwise_cons hsorted hxm
      have hitem : Indexed.event y.1 y.2 = .retract ⟨y.1.block⟩ ∨
          ∃ e, Indexed.event y.1 y.2 = .event ⟨y.1.block⟩ e := Or.inr ⟨y.2, rfl⟩
      obtain ⟨r, hr⟩ := halts_of_le hsteady.window hitem ⟨f, hfm, by omega⟩
      exact hclean _ r ((prefix_foldl_liveStep (asLive live) _).subset hr)
  · intro habove
    exact (steady_persistAndEmit hW hR hdepth hs hr hbury htip hseed hback hsorted hsmall hD
      habove).clean

end Live

/-! ### Subscriptions -/

theorem clean_replay (events : List E) (effects : List (Effect BlockPosition E)) :
    Clean (events.map .yielded ++ effects) ↔ Clean effects := by
  constructor
  · exact fun h writer r hm => h writer r (List.mem_append_right _ hm)
  · intro h writer r hm
    rcases List.mem_append.mp hm with hm | hm
    · obtain ⟨e, -, he⟩ := List.mem_map.mp hm
      exact absurd he (by simp)
    · exact h writer r hm

/-- A subscription to a source that never reorganises stays healthy exactly when its live stream
re-delivers no event at or below the stored position or the final cut. -/
theorem subscription_healthy_iff [PersistableCollector τ BlockPosition E] [Store σ BlockPosition]
    [RecordOps ρ E] {chain : Nat → List E} {H : τ → Prop} (hH : NonReorganising chain H)
    (hA : Answers E H) {W : σ → Prop} (hW : Reliable BlockPosition W) {R : ρ → Prop}
    (hR : Encodes (fun e => ∃ k, e ∈ chain k) R) {p : Persisted ρ} {record : ρ}
    (hrec : p.record = .ok record) (hr : R record) {c : τ} (hc : H c)
    (hheights : ∀ k, chain k ≠ [] → k < u64Max) {store : σ} (hs : W store)
    {live : List (Indexed BlockPosition E)} {c₁ : τ}
    (hlive : p.liveSource c = (.ok live, c₁)) {tip : BlockPosition} {c₂ : τ}
    (htip : PersistableCollector.tip E c₁ = (.ok tip, c₂)) (htipmax : tip.block < u64Max)
    {last : Option BlockPosition}
    (hlast : Store.storedPosition store (RecordOps.table E record) = .ok last)
    (hok : (p.subscribe c store : Except Error (Subscription BlockPosition E) × τ).1.isOk) :
    Clean (E := E) (p.stream c store) ↔ ∀ position event, .event position event ∈ live →
      (∀ q ∈ last, q.block < position.block) ∧
        ∀ cut ∈ p.finalCut tip.block, cut < position.block := by
  obtain ⟨sub, c', hsub, hstream⟩ := stream_of_ok hok
  obtain ⟨record', live', c₁', tip', c₂', last', backfill, outcome, hrec', hl, ht, hlast', -, hb,
    hsync⟩ := subscribe_ok hsub
  obtain rfl : record = record' := Except.ok.inj (hrec.symm.trans hrec')
  obtain ⟨hl', rfl⟩ := Prod.mk.inj (hlive.symm.trans hl)
  obtain rfl := Except.ok.inj hl'
  obtain ⟨ht', rfl⟩ := Prod.mk.inj (htip.symm.trans ht)
  obtain rfl := Except.ok.inj ht'
  obtain rfl : last = last' := Except.ok.inj (hlast.symm.trans hlast')
  obtain ⟨hc₂, m, n, done, rfl, hdone, -⟩ := liveSource_fixed hH hc hl ht
  have heff : p.effectiveTip tip.block ≤ tip.block := p.effectiveTip_le
  simp only [BlockPosition.sortKey_eq] at hb hsync
  obtain ⟨rfl, rfl⟩ := backfillSegment_answers hH hA hc₂ (by omega) hb
  have hback : ∀ x ∈ chainEvents chain (p.backfillFrom last) (p.effectiveTip tip.block),
      ∀ q ∈ last, q.block < x.1.block := by
    intro x hx q hq
    have hmem := mem_chainEvents.mp hx
    have hfrom : Position.resumeKey q ≤ p.backfillFrom last := by
      rw [Persisted.backfillFrom, Option.mem_def.mp hq, Option.elim_some]
      exact Nat.le_max_left _ _
    have hkey : Position.resumeKey q = min (q.block + 1) u64Max := rfl
    omega
  have hlivemem : ∀ x ∈ done, x.2 ∈ chain x.1.block := fun x hx =>
    (mem_chainEvents.mp (hdone.subset hx)).2.2
  have hbelow : p.effectiveTip tip.block < u64Max := by omega
  have hiff := clean_persistAndEmit hW hR p.depth_pos hs hr (p.bury hbelow)
    (fun x hx => (mem_chainEvents.mp hx).2.1) hback
    chainEvents_pairwise (List.Pairwise.sublist hdone.sublist chainEvents_pairwise)
    (fun x hx => hheights _ (List.ne_nil_of_mem (hlivemem x hx)))
    fun x hx => by
      rcases List.mem_append.mp hx with hx | hx
      · exact ⟨_, (mem_chainEvents.mp hx).2.2⟩
      · exact ⟨_, hlivemem x hx⟩
  rw [hstream, Subscription.effects, clean_replay, hsync, Persisted.synced, hiff]
  constructor
  · intro h position event hm
    obtain ⟨x, hx, he⟩ := List.mem_map.mp hm
    obtain ⟨rfl, rfl⟩ := Indexed.event.inj he
    exact h x hx
  · exact fun h x hx => h x.1 x.2 (List.mem_map.mpr ⟨x, hx, rfl⟩)

/-! ### Two subscriptions at tip 10 -/

/-- One event at every height up to 12. -/
def overlapBlocks : List (List ValueSet) := (List.range 13).map fun k => [⟨k⟩]

def overlapStream (m : Nat) : List (Effect BlockPosition ValueSet) :=
  (scriptedWrapper 0 1 Nat.one_pos none).stream (ScriptedCollector.from overlapBlocks m 10)
    (MemoryStore.new [] : MemoryStore BlockPosition)

/-- Opened at block 9, two blocks before the tip is queried, the live stream of a chain that never
reorganises halts the window. -/
theorem overlap_halts :
    ScriptedCollector.Reports overlapBlocks (.from overlapBlocks 9 10) ∧
      .halted .window (.reobserved ⟨9⟩ 1) ∈ overlapStream 9 :=
  ⟨ScriptedCollector.reports_from overlapBlocks (by decide), by decide +kernel⟩

/-- Opened at block 10, above the final cut, it does not. -/
theorem overlap_healthy : Clean (overlapStream 10) := by
  refine (subscription_healthy_iff (ScriptedCollector.nonReorganising overlapBlocks)
    (fun c _ a b => ⟨_, c, rfl⟩) MemoryStore.reliable (ValueSet.encodes _) rfl (Or.inl rfl)
    (ScriptedCollector.reports_from overlapBlocks (by decide))
    (fun k hk => Nat.lt_trans (lt_length_of_chainOf hk) (by decide)) rfl rfl rfl (by decide) rfl
    (by decide +kernel)).mpr fun position event hm => ?_
  obtain ⟨x, hx, he⟩ := List.mem_map.mp hm
  obtain ⟨rfl, rfl⟩ := Indexed.event.inj he
  refine ⟨fun q hq => absurd hq (by simp [MemoryStore.new, Archive.empty]), fun cut hcut => ?_⟩
  obtain rfl : 9 = cut := Option.some.inj hcut
  exact (mem_chainEvents.mp hx).1

end ArtemisLight
