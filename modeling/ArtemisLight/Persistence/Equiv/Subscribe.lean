import ArtemisLight.Persistence.Equiv.FixedChain

/-!
# Subscriptions

`subscribe_ok` lists what a successful subscribe has read.  From it follow the safety of every block
subscription and, against a fixed chain, what a subscription adds to the archive.
-/

namespace ArtemisLight

variable {τ σ ρ P E : Type}

/-! ### What a subscribe reads -/

section Read

variable [Position P] [PersistableCollector τ P E] [Store σ P] [RecordOps ρ E]

omit [Position P] [RecordOps ρ E] in
theorem Persisted.liveSource_of_unbounded {p : Persisted ρ} (h : p.toBlock = none) (c : τ) :
    (p.liveSource c : Except Error (List (Indexed P E)) × τ)
      = PersistableCollector.subscribeIndexed c := by
  rw [Persisted.liveSource, h]

omit [Position P] [RecordOps ρ E] in
theorem Persisted.liveSource_of_bounded {p : Persisted ρ} {b : Nat} (h : p.toBlock = some b)
    (c : τ) :
    (p.liveSource c : Except Error (List (Indexed P E)) × τ) = (.ok [], c) := by
  rw [Persisted.liveSource, h]

/-- What a successful subscribe has read, in order, and what it returns. -/
theorem subscribe_ok {p : Persisted ρ} {c c' : τ} {store : σ} {sub : Subscription P E}
    (h : p.subscribe c store = (.ok sub, c')) :
    ∃ (record : ρ) (live : List (Indexed P E)) (c₁ : τ) (tip : P) (c₂ : τ) (last : Option P)
      (backfill : List (P × E)) (outcome : ChunkEnd),
      p.record = .ok record ∧ p.liveSource c = (.ok live, c₁) ∧
      PersistableCollector.tip E c₁ = (.ok tip, c₂) ∧
      Store.storedPosition store (RecordOps.table E record) = .ok last ∧
      replaySegment store p.replayed record (p.replayUpTo last) = .ok sub.replay ∧
      backfillSegment c₂ (p.backfillFrom last) (p.effectiveTip (Position.sortKey tip))
        p.backfillChunkSize = (.ok (backfill, outcome), c') ∧
      sub.synced = p.synced store record (p.finalCut (Position.sortKey tip)) last backfill outcome
        live := by
  unfold Persisted.subscribe at h
  -- each call that may fail ends the subscription with its error
  rcases hr : p.record with e | record
  · rw [hr] at h
    exact absurd h (by simp)
  rcases hl : (p.liveSource c : Except Error (List (Indexed P E)) × τ) with ⟨e | live, c₁⟩
  · rw [hr, hl] at h
    exact absurd h (by simp)
  rcases ht : (PersistableCollector.tip E c₁ : Except Error P × τ) with ⟨e | tip, c₂⟩
  · rw [hr, hl] at h
    simp only [ht] at h
    exact absurd h (by simp)
  rcases hs : (Store.storedPosition store (RecordOps.table E record) : Except Error (Option P))
    with e | last
  · rw [hr, hl] at h
    simp only [ht, hs] at h
    exact absurd h (by simp)
  rcases hp : (replaySegment store p.replayed record (p.replayUpTo last) : Except Error (List E))
    with e | replay
  · rw [hr, hl] at h
    simp only [ht, hs, hp] at h
    exact absurd h (by simp)
  rcases hb : (backfillSegment c₂ (p.backfillFrom last) (p.effectiveTip (Position.sortKey tip))
      p.backfillChunkSize :
        Except Error (List (P × E) × ChunkEnd) × τ) with ⟨e | ⟨backfill, outcome⟩, c₃⟩
  · rw [hr, hl] at h
    simp only [ht, hs, hp, hb] at h
    exact absurd h (by simp)
  · rw [hr, hl] at h
    simp only [ht, hs, hp, hb] at h
    obtain ⟨hsub, rfl⟩ := Prod.mk.inj h
    obtain rfl := Except.ok.inj hsub
    exact ⟨record, live, c₁, tip, c₂, last, backfill, outcome, rfl, rfl, ht, hs, hp, hb, rfl⟩

/-- The stream of a subscribe that succeeds. -/
theorem stream_of_ok {p : Persisted ρ} {c : τ} {store : σ}
    (h : (p.subscribe c store : Except Error (Subscription P E) × τ).1.isOk) :
    ∃ (sub : Subscription P E) (c' : τ), p.subscribe c store = (.ok sub, c') ∧
      p.stream c store = sub.effects := by
  unfold Persisted.stream
  rcases hs : (p.subscribe c store : Except Error (Subscription P E) × τ) with ⟨e | sub, c'⟩
  · rw [hs] at h
    exact absurd h (by simp [Except.isOk, Except.toBool])
  · exact ⟨sub, c', rfl, rfl⟩

end Read

/-! ### The final cut -/

section Cut

variable (p : Persisted ρ) {tipKey : Nat}

/-- Above the cut nothing is buried under the tip. -/
theorem Persisted.bury (h : p.effectiveTip tipKey < u64Max) :
    ∀ k, (∀ c ∈ p.finalCut tipKey, c < k) → k ≤ p.effectiveTip tipKey →
      p.effectiveTip tipKey < saturatingAdd u64Max k p.confirmationDepth := by
  intro k hk hle
  unfold Persisted.finalCut at hk
  split at hk
  · have := hk _ rfl
    omega
  · rcases hc : checkedSub (p.effectiveTip tipKey) p.confirmationDepth with _ | c
    · have := checkedSub_eq_none.mp hc
      unfold saturatingAdd
      omega
    · have hck := hk c hc
      obtain ⟨hle', rfl⟩ := checkedSub_eq_some.mp hc
      unfold saturatingAdd
      omega

theorem Persisted.effectiveTip_le : p.effectiveTip tipKey ≤ tipKey := by
  unfold Persisted.effectiveTip
  rcases p.toBlock with _ | b
  · exact Nat.le_refl _
  · exact Nat.min_le_right _ _

/-- The first height a subscription has to store: above the stored position, from the start block
on. -/
def Persisted.firstMissing (last : Option BlockPosition) : Nat :=
  max (last.elim 0 fun q => q.block + 1) p.startBlock

theorem Persisted.lt_firstMissing {last : Option BlockPosition} {q : BlockPosition}
    (hq : q ∈ last) :
    q.block < p.firstMissing last := by
  rw [Persisted.firstMissing, Option.mem_def.mp hq, Option.elim_some]
  omega

/-- Below `u64::MAX` the gap that is queried starts at the first missing height. -/
theorem Persisted.chainEvents_backfillFrom (chain : Nat → List E) (last : Option BlockPosition)
    {hi : Nat}
    (hmax : hi < u64Max) :
    chainEvents chain (p.backfillFrom last) hi = chainEvents chain (p.firstMissing last) hi := by
  unfold Persisted.backfillFrom Persisted.firstMissing
  rcases last with _ | q
  · rfl
  · have hkey : Position.resumeKey q = min (q.block + 1) u64Max := rfl
    simp only [Option.elim_some, hkey]
    by_cases hq : q.block < u64Max
    · rw [Nat.min_eq_left hq]
    · rw [chainEvents_of_lt (by omega), chainEvents_of_lt (by omega)]

end Cut

/-! ### Subscriptions to a fixed chain -/

section Chain

variable [PersistableCollector τ BlockPosition E] [Archival σ BlockPosition] [RecordOps ρ E]
  {chain : Nat → List E} {H : τ → Prop}

omit [Archival σ BlockPosition] [RecordOps ρ E] in
/-- The live stream of a subscription to a fixed chain: none in bounded mode, else the chain from
some height at most one above the tip on. -/
theorem liveSource_fixed (hH : NonReorganising chain H) {p : Persisted ρ} {c c₁ c₂ : τ} (hc : H c)
    {live : List (Indexed BlockPosition E)} {tip : BlockPosition}
    (hl : p.liveSource c = (.ok live, c₁)) (ht : PersistableCollector.tip E c₁ = (.ok tip, c₂)) :
    H c₂ ∧ ∃ (m n : Nat) (done : List (BlockPosition × E)), live = asLive done ∧
      done <+: chainEvents chain m n ∧ (done ≠ [] → p.toBlock = none ∧ m ≤ tip.block + 1) := by
  have hc₁ : H c₁ := by
    rcases hto : p.toBlock with _ | b
    · have hclosed := hH.subscribe_closed c hc
      rwa [← p.liveSource_of_unbounded hto, hl] at hclosed
    · rw [p.liveSource_of_bounded hto] at hl
      rwa [← (Prod.mk.inj hl).2]
  have hc₂ : H c₂ := by
    have hclosed := hH.tip_closed c₁ hc₁
    rwa [ht] at hclosed
  refine ⟨hc₂, ?_⟩
  rcases hto : p.toBlock with _ | b
  · rw [p.liveSource_of_unbounded hto] at hl
    obtain ⟨m, hm, n, t, hpre⟩ := hH.subscribe_live c hc live c₁ tip c₂ hl ht
    obtain ⟨done, rest, hd, rfl, -⟩ := List.map_eq_append_iff.mp hpre.symm
    exact ⟨m, n, done, rfl, ⟨rest, hd.symm⟩, fun _ => ⟨rfl, hm⟩⟩
  · rw [p.liveSource_of_bounded hto] at hl
    obtain rfl := Except.ok.inj (Prod.mk.inj hl).1
    exact ⟨0, 0, [], rfl, List.nil_prefix, fun h => absurd rfl h⟩

omit [Archival σ BlockPosition] in
/-- A subscription to a fixed chain runs its writers over a backfill of the chain from the resume
point to some height, the tip unless a window failed, and then over the chain from some height `m ≤
tip + 1` on. -/
theorem subscribe_fixed [Store σ BlockPosition] (hH : NonReorganising chain H) {p : Persisted ρ}
    {c c' : τ} (hc : H c) (hsmall : SmallHeights chain p c) {record : ρ}
    (hrec : p.record = .ok record)
    {store : σ} {sub : Subscription BlockPosition E} (hsub : p.subscribe c store = (.ok sub, c')) :
    ∃ (tip : BlockPosition) (last : Option BlockPosition) (hi m n : Nat)
      (done : List (BlockPosition × E)),
      tip.block + p.confirmationDepth ≤ i64Max ∧
      Store.storedPosition store (RecordOps.table E record) = .ok last ∧
      replaySegment store p.replayed record (p.replayUpTo last) = .ok sub.replay ∧
      hi ≤ p.effectiveTip tip.block ∧ done <+: chainEvents chain m n ∧
      (done ≠ [] → p.toBlock = none ∧ hi = tip.block ∧ m ≤ tip.block + 1) ∧
      sub.synced = (persistAndEmit (chainEvents chain (p.firstMissing last) hi) (asLive done) store
        record p.confirmationDepth (p.finalCut tip.block) last).io.effects := by
  obtain ⟨record', live, c₁, tip, c₂, last, backfill, outcome, hr, hl, ht, hs, hrep, hb, hsync⟩ :=
    subscribe_ok hsub
  obtain rfl : record = record' := Except.ok.inj (hrec.symm.trans hr)
  have htip := hsmall.tip live c₁ tip c₂ hl ht
  have hlt64 : i64Max < u64Max := by decide
  have htk : p.effectiveTip tip.block ≤ tip.block := p.effectiveTip_le
  simp only [BlockPosition.sortKey_eq] at hb hsync
  obtain ⟨hc₂, m, n, done, rfl, hdone, hm⟩ := liveSource_fixed hH hc hl ht
  obtain ⟨hi, hhi, rfl, hend⟩ := backfillSegment_exact hH hc₂ (by omega) hb
  rw [p.chainEvents_backfillFrom chain last (by omega : hi < u64Max)] at hsync
  rcases hend with rfl | ⟨rfl, rfl⟩
  · exact ⟨tip, last, hi, 0, 0, [], htip, hs, hrep, hhi, List.nil_prefix, fun h => absurd rfl h,
      hsync⟩
  · refine ⟨tip, last, _, m, n, done, htip, hs, hrep, Nat.le_refl _, hdone, fun hne => ?_, hsync⟩
    obtain ⟨hto, hm⟩ := hm hne
    exact ⟨hto, by simp [Persisted.effectiveTip, hto], hm⟩

/-- Whatever part of a subscription to a fixed chain is run, it appends to the archive the chain's
events from the resume point up to the new stored position. -/
theorem extends_subscribe (hH : NonReorganising chain H) {p : Persisted ρ} {c c' : τ} (hc : H c)
    (hsmall : SmallHeights chain p c) {record : ρ} (hrec : p.record = .ok record) {store : σ}
    {a : Archive BlockPosition} (ha : Archival.archive store (RecordOps.table E record) = a)
    {sub : Subscription BlockPosition E}
    (hsub : p.subscribe c store = (.ok sub, c')) {effects : List (Effect BlockPosition E)}
    (hpre : effects <+: sub.synced) :
    a.after effects = a ∨
      ∃ w, ExtendsTo ρ chain (p.firstMissing a.position) a w (a.after effects) := by
  obtain ⟨tip, last, hi, m, n, done, htip, hs, -, hhi, hdone, hm, hsync⟩ :=
    subscribe_fixed hH hc hsmall hrec hsub
  obtain rfl : a.position = last := by rw [← ha]; exact Archival.storedPosition_ok hs
  have hlt64 : i64Max < u64Max := by decide
  have htk : p.effectiveTip tip.block ≤ tip.block := p.effectiveTip_le
  have hbelow : p.effectiveTip tip.block < u64Max := by omega
  have hbury := p.bury hbelow
  have hseed : ∀ q ∈ a.position, q.block < p.firstMissing a.position := fun q hq =>
    p.lt_firstMissing hq
  rw [hsync] at hpre
  have hsafe :=
    (safe_persistAndEmit (chainEvents chain (p.firstMissing a.position) hi) (asLive done)
    store record hbury (fun x hx => Nat.le_trans (mem_chainEvents.mp hx).2.1 hhi)
    fun x hx q hq => Nat.lt_of_lt_of_le (hseed q hq) (mem_chainEvents.mp hx).1).of_isPrefix hpre
  have hcomp := (complete_persistAndEmit store record hbury p.depth_pos hhi hseed hsmall.heights
    (by omega) (fun h => by
      obtain ⟨hto, rfl, hm⟩ := hm h
      have heff : p.effectiveTip tip.block = tip.block := by simp [Persisted.effectiveTip, hto]
      exact ⟨heff.symm, by omega⟩) hdone).of_isPrefix hpre
  rcases extends_after (encoded_persistAndEmit _ _ store record _ _ _) effects hpre hsafe hcomp with
    ⟨-, heq⟩ | ⟨w, -, -, hext⟩
  · exact Or.inl heq
  · exact Or.inr ⟨w, hext⟩

end Chain

end ArtemisLight
