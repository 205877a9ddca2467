import ArtemisLight.Persistence.Equiv.Overlap
import ArtemisLight.Persistence.Equiv.Snapshot
import ArtemisLight.Persistence.Writer.Equiv.Redelivery

/-!
# The segments of a subscription

The first subscription to a source that never reorganises delivers three segments: what is stored,
the gap up to the tip, and the live tail.  Each event is in one of them, although the live stream
may overlap the gap.
-/

namespace ArtemisLight

variable {τ σ ρ E : Type} {chain : Nat → List E} {lo hi m n : Nat}

/-! ### The overlap of two ranges of a chain -/

/-- What a live stream reports outside a range that reaches up to it: the blocks below the range,
and those above it. -/
theorem outside_chainEvents (hm : m ≤ hi + 1) (hlo : lo ≤ hi + 1) :
    outside lo hi (chainEvents chain m n)
      = (chainEvents chain m n).filter (fun x => decide (x.1.block < lo))
        ++ chainEvents chain (hi + 1) n := by
  have hbelow : ∀ x ∈ chainEvents chain (hi + 1) n, hi < x.1.block := fun x hx =>
    (mem_chainEvents.mp hx).1
  have habove : outside lo hi (chainEvents chain (hi + 1) n) = chainEvents chain (hi + 1) n := by
    refine List.filter_eq_self.mpr fun x hx => ?_
    have := hbelow x hx
    simp
    omega
  have hnone : (chainEvents chain (hi + 1) n).filter (fun x => decide (x.1.block < lo)) = [] := by
    refine List.filter_eq_nil_iff.mpr fun x hx => ?_
    have := hbelow x hx
    simp
    omega
  have hwithin : ∀ x ∈ chainEvents chain m hi,
      (!decide (lo ≤ x.1.block ∧ x.1.block ≤ hi)) = decide (x.1.block < lo) := by
    intro x hx
    have := (mem_chainEvents.mp hx).2.1
    rw [← decide_not, decide_eq_decide]
    omega
  by_cases hn : hi ≤ n
  · rw [← chainEvents_append hm hn]
    unfold outside at habove ⊢
    rw [List.filter_append, List.filter_append, habove, hnone, List.append_nil]
    congr 1
    exact List.filter_congr hwithin
  · rw [chainEvents_of_lt (show n < hi + 1 by omega), List.append_nil]
    refine List.filter_congr fun x hx => hwithin x ?_
    obtain ⟨hmx, hxn, he⟩ := mem_chainEvents.mp hx
    exact mem_chainEvents.mpr ⟨hmx, by omega, he⟩

/-- What is held at each height once a live stream that starts at `m` has passed the backfill. -/
theorem run_overlap (hm : m ≤ hi + 1) (hn : hi ≤ n) (k : Nat) :
    ((Ledger.snapshot (chainEvents chain lo hi)).run (asLive (chainEvents chain m n))).events k
      = if (lo ≤ k ∨ m ≤ k) ∧ k ≤ n then chain k else [] := by
  have hat : eventsAt (chainEvents chain m n) k = if m ≤ k ∧ k ≤ n then chain k else [] :=
    eventsAt_chainEvents k
  -- without a live event the snapshot stays as it is
  rcases hhead : (chainEvents chain m n).head? with _ | first
  · rw [List.head?_eq_none_iff] at hhead
    rw [hhead] at hat ⊢
    show eventsAt (chainEvents chain lo hi) k = _
    rw [eventsAt_chainEvents]
    by_cases hk : m ≤ k ∧ k ≤ n
    · rw [if_pos hk] at hat
      rw [← hat]
      simp
    · by_cases hr : lo ≤ k ∧ k ≤ hi
      · rw [if_pos hr, if_pos ⟨Or.inl hr.1, by omega⟩]
      · rw [if_neg hr, if_neg (by omega)]
  · obtain ⟨last, hlast⟩ : ∃ last, last ∈ (chainEvents chain m n).getLast? := by
      rcases hl : chainEvents chain m n with _ | ⟨x, l⟩
      · rw [hl] at hhead
        exact absurd hhead (by simp)
      · exact ⟨_, List.getLast?_cons⟩
    have hfm := mem_chainEvents.mp (List.mem_of_mem_head? (Option.mem_def.mpr hhead))
    have hsorted : (chainEvents chain m n).Pairwise _ := chainEvents_pairwise
    obtain ⟨-, hrun⟩ := Ledger.run_ascending (chainEvents chain lo hi) hsorted
    obtain ⟨-, -, hevents⟩ := hrun first hhead last hlast
    rw [hevents, hat, eventsAt_chainEvents]
    have hempty : m ≤ k → k < first.1.block → chain k = [] := chain_eq_nil_of_head hhead
    -- below the first live event the snapshot is kept
    by_cases hk : k < first.1.block
    · rw [if_pos hk]
      by_cases hnil : chain k = []
      · simp [hnil]
      · have hkm : ¬ m ≤ k := fun hkm => hnil (hempty hkm hk)
        by_cases hr : lo ≤ k ∧ k ≤ hi
        · rw [if_pos hr, if_pos ⟨Or.inl hr.1, by omega⟩]
        · rw [if_neg hr, if_neg (by omega)]
    · rw [if_neg hk]
      by_cases hr : m ≤ k ∧ k ≤ n
      · rw [if_pos hr, if_pos ⟨Or.inr hr.1, hr.2⟩]
      · rw [if_neg hr, if_neg (by omega)]

/-! ### The whole subscription -/

section Subscription

variable [PersistableCollector τ BlockPosition E] [Archival σ BlockPosition] [RecordOps ρ E]

/-- The first subscription without a bound replays the whole history. -/
theorem History.replayed_unbounded {p : Persisted ρ} (hbound : p.toBlock = none) {record : ρ}
    {a : Archive BlockPosition} {stored : List (BlockPosition × E)} {store : σ}
    (ha : Archival.archive store (RecordOps.table E record) = a)
    (hread : Readable (P := BlockPosition) store (RecordOps.table E record))
    (h : History record a stored) {replay : List E}
    (hreplay : replaySegment store false record (p.replayUpTo a.position) = .ok replay) :
    replay = stored.map Prod.snd := by
  have hupto : p.replayUpTo a.position = a.position := by
    unfold Persisted.replayUpTo
    rw [hbound]
  unfold replaySegment at hreplay
  rw [hupto, if_neg (by simp)] at hreplay
  rcases hq : a.position with _ | q
  · rw [hq] at hreplay
    have hstored : stored = [] := by
      refine List.eq_nil_iff_forall_not_mem.mpr fun x hx => ?_
      obtain ⟨l, hl, -⟩ := h.covered x hx
      rw [hq] at hl
      exact absurd hl (by simp)
    rw [hstored, ← Except.ok.inj hreplay]
    rfl
  · rw [hq, h.replayStored ha hread q] at hreplay
    rw [← Except.ok.inj hreplay, List.filter_eq_self.mpr fun x hx => ?_]
    obtain ⟨l, hl, hcontains⟩ := h.covered x hx
    rw [hq] at hl
    obtain rfl := Option.some.inj hl
    exact decide_eq_true (LawfulPosition.le_of_contains q x.1 hcontains)

/-- The blocks of a gap at the heights that a live stream reports are the live stream's. -/
theorem eventsAt_gap {chain : Nat → List E} {lo hi m n k : Nat}
    (hne : eventsAt (chainEvents chain m n) k ≠ []) :
    eventsAt (chainEvents chain lo hi) k
      = if lo ≤ k ∧ k ≤ hi then eventsAt (chainEvents chain m n) k else [] := by
  rw [eventsAt_chainEvents] at hne ⊢
  rw [eventsAt_chainEvents]
  by_cases hk : m ≤ k ∧ k ≤ n
  · rw [if_pos hk]
  · rw [if_neg hk] at hne
    exact absurd rfl hne

/-- The gap ends no earlier than just below the first missing height. -/
theorem Persisted.firstMissing_le {p : Persisted ρ} {last : Option BlockPosition} {tip m : Nat}
    (hstart : p.startBlock ≤ tip) (hlast : ∀ q ∈ last, q.block < m) (hm : m ≤ tip + 1) :
    p.firstMissing last ≤ tip + 1 := by
  unfold Persisted.firstMissing
  rcases last with _ | q
  · simp only [Option.elim_none]
    omega
  · have := hlast q rfl
    simp only [Option.elim_some]
    omega

/-- What an unbounded subscription to a source that never reorganises puts together: the replay, and
the writers over the gap and the live stream. -/
theorem subscribe_unbounded {H : τ → Prop} (hH : NonReorganising chain H) (hA : Answers E H)
    {p : Persisted ρ} (hbound : p.toBlock = none) {record : ρ} (hrec : p.record = .ok record)
    {c : τ} (hc : H c) {store : σ} {a : Archive BlockPosition}
    (ha : Archival.archive store (RecordOps.table E record) = a)
    (hread : Readable (P := BlockPosition) store (RecordOps.table E record))
    {live : List (Indexed BlockPosition E)} {c₁ : τ} (hlive : p.liveSource c = (.ok live, c₁))
    {tip : BlockPosition} {c₂ : τ} (htip : PersistableCollector.tip E c₁ = (.ok tip, c₂))
    (htipmax : tip.block < u64Max) {c' : τ} {sub : Subscription BlockPosition E}
    (hsub : p.subscribe c store = (.ok sub, c')) :
    replaySegment store p.replayed record (p.replayUpTo a.position) = .ok sub.replay ∧
      sub.synced = (persistAndEmit (chainEvents chain (p.firstMissing a.position) tip.block) live
        store record p.confirmationDepth (p.finalCut tip.block) a.position).io.effects := by
  obtain ⟨record', live', c₁', tip', c₂', last, backfill, outcome, hrec', hl, ht, hposition,
    hreplay, hb, hsync⟩ := subscribe_ok hsub
  obtain rfl : record = record' := Except.ok.inj (hrec.symm.trans hrec')
  obtain ⟨hl', rfl⟩ := Prod.mk.inj (hlive.symm.trans hl)
  obtain rfl := Except.ok.inj hl'
  obtain ⟨ht', rfl⟩ := Prod.mk.inj (htip.symm.trans ht)
  obtain rfl := Except.ok.inj ht'
  obtain rfl : a.position = last := by
    have := hread.position
    rw [ha] at this
    exact Except.ok.inj (this.symm.trans hposition)
  obtain ⟨hc₂, -⟩ := liveSource_fixed hH hc hl ht
  have heff : p.effectiveTip tip.block = tip.block := by
    unfold Persisted.effectiveTip
    rw [hbound]
    rfl
  rw [BlockPosition.sortKey_eq, heff] at hb
  obtain ⟨rfl, rfl⟩ := backfillSegment_answers hH hA hc₂ htipmax hb
  rw [p.chainEvents_backfillFrom chain _ htipmax, BlockPosition.sortKey_eq, Persisted.synced]
    at hsync
  exact ⟨hreplay, hsync⟩

/-- The segments of the first subscription to a source that never reorganises, whose live stream
starts above the stored position and the final cut, with a store that does not fail and events that
encode.  What is stored is delivered, then the gap up to the tip, then what the live stream reports
outside the gap, each event once; everything above the stored position is accepted, and once the
live stream has passed the tip it is held once, the copy of the overlap having been replaced. -/
theorem segments_exact {H : τ → Prop} (hH : NonReorganising chain H) (hA : Answers E H)
    {W : σ → Prop} (hW : Reliable BlockPosition W) {R : ρ → Prop}
    (hR : Encodes (fun e => ∃ k, e ∈ chain k) R) {p : Persisted ρ} (hfirst : p.replayed = false)
    (hbound : p.toBlock = none) {record : ρ} (hrec : p.record = .ok record) (hr : R record) {c : τ}
    (hc : H c) (hheights : ∀ k, chain k ≠ [] → k < u64Max) {store : σ} (hs : W store)
    {a : Archive BlockPosition} (ha : Archival.archive store (RecordOps.table E record) = a)
    (hread : Readable (P := BlockPosition) store (RecordOps.table E record))
    {stored : List (BlockPosition × E)} (hstored : History record a stored) {c₁ : τ}
    (hlive : p.liveSource c = (.ok (asLive (chainEvents chain m n)), c₁)) {tip : BlockPosition}
    {c₂ : τ} (htip : PersistableCollector.tip E c₁ = (.ok tip, c₂)) (htipmax : tip.block < u64Max)
    (hstart : p.startBlock ≤ tip.block) (hlast : ∀ q ∈ a.position, q.block < m)
    (hcut : ∀ cut ∈ p.finalCut tip.block, cut < m) (hm : m ≤ tip.block + 1) {c' : τ}
    {sub : Subscription BlockPosition E} (hsub : p.subscribe c store = (.ok sub, c')) :
    sub.replay = stored.map Prod.snd ∧
    yields sub.synced = (chainEvents chain (p.firstMissing a.position) tip.block
        ++ (chainEvents chain m n).filter (fun x =>
          decide (x.1.block < p.firstMissing a.position))
        ++ chainEvents chain (tip.block + 1) n).map Prod.snd ∧
    accepts sub.synced
      = chainEvents chain (p.firstMissing a.position) tip.block ++ chainEvents chain m n ∧
    (tip.block ≤ n → ∀ k, heldEvents sub.synced k
      = if (p.firstMissing a.position ≤ k ∨ m ≤ k) ∧ k ≤ n then chain k else []) := by
  obtain ⟨hreplay, hsync⟩ := subscribe_unbounded hH hA hbound hrec hc ha hread hlive htip htipmax
    hsub
  have hmissing := p.firstMissing_le hstart hlast hm
  have hback : ∀ x ∈ chainEvents chain (p.firstMissing a.position) tip.block,
      ∀ q ∈ a.position, q.block < x.1.block := fun x hx q hq =>
    Nat.lt_of_lt_of_le (p.lt_firstMissing hq) (mem_chainEvents.mp hx).1
  have hsmall : ∀ x ∈ chainEvents chain m n, x.1.block < u64Max := fun x hx =>
    hheights _ (List.ne_nil_of_mem (mem_chainEvents.mp hx).2.2)
  -- what the live stream reports lies above everything stored or settled
  have habove : ∀ x ∈ chainEvents chain m n, (∀ q ∈ a.position, q.block < x.1.block) ∧
      ∀ cut ∈ p.finalCut tip.block, cut < x.1.block := by
    intro x hx
    have hmx := (mem_chainEvents.mp hx).1
    exact ⟨fun q hq => Nat.lt_of_lt_of_le (hlast q hq) hmx,
      fun cut hc => Nat.lt_of_lt_of_le (hcut cut hc) hmx⟩
  have heff : p.effectiveTip tip.block = tip.block := by
    unfold Persisted.effectiveTip
    rw [hbound]
    rfl
  have hbury := p.bury (heff.symm ▸ htipmax)
  rw [heff] at hbury
  have hD : ∀ x ∈ chainEvents chain (p.firstMissing a.position) tip.block ++ chainEvents chain m n,
      ∃ k, x.2 ∈ chain k := by
    intro x hx
    rcases List.mem_append.mp hx with hx | hx
    · exact ⟨_, (mem_chainEvents.mp hx).2.2⟩
    · exact ⟨_, (mem_chainEvents.mp hx).2.2⟩
  -- the writers are given two overlapping segments of the one chain
  obtain ⟨hyields, haccepts⟩ := overlap_persistAndEmit hW hR p.depth_pos hs hr hbury
    (fun x hx => (mem_chainEvents.mp hx).2.1) hback chainEvents_pairwise chainEvents_pairwise hsmall
    hD habove fun k => eventsAt_gap
  rw [hsync]
  refine ⟨hstored.replayed_unbounded hbound ha hread ?_, ?_, haccepts, fun hn k => ?_⟩
  · rw [← hfirst]
    exact hreplay
  · rw [hyields, outside_chainEvents hm hmissing, ← List.map_append, List.append_assoc]
  · -- what is held is the snapshot of their ledger, as no writer halts
    have hsteady := steady_persistAndEmit hW hR p.depth_pos hs hr hbury
      (fun x hx => (mem_chainEvents.mp hx).2.1) hback chainEvents_pairwise
      (chainEvents_pairwise : (chainEvents chain m n).Pairwise _) hsmall hD habove
    have htracks := (persistAndEmit_tracks (chainEvents chain (p.firstMissing a.position) tip.block)
      (asLive (chainEvents chain m n)) store record hbury
      (fun x hx => (mem_chainEvents.mp hx).2.1) hback
      (Ledger.run_ascending _ chainEvents_pairwise).1 (C := fun _ _ => True)
      (fun _ _ _ => trivial) (fun _ _ _ _ _ _ _ _ _ _ => trivial)
      fun _ _ _ _ _ _ _ _ _ _ => trivial).1
    rw [(htracks.tracks hsteady.window).events k]
    exact run_overlap hm hn k

end Subscription

/-! ### Where the segments overlap -/

/-- What a subscription to a chain with one event at every height up to 12 does, which is opened at
the height `m` before the tip 10 is read. -/
def segmentStream (start depth : Nat) (hd : 0 < depth) (m : Nat) (fails : List Nat) :
    List (Effect BlockPosition ValueSet) :=
  (scriptedWrapper start depth hd none).stream (ScriptedCollector.from overlapBlocks m 10)
    (MemoryStore.new fails : MemoryStore BlockPosition)

/-- The start block 10 keeps the backfill from the block 9, which the live stream then delivers and
stores after it; and once a write has failed the overlap is delivered again. -/
theorem start_block_overtaken :
    ScriptedCollector.Reports overlapBlocks (.from overlapBlocks 9 10) ∧
    (scriptedWrapper 10 2 Nat.two_pos none).finalCut 10 = some 8 ∧
    yields (segmentStream 10 2 Nat.two_pos 9 []) = [⟨10⟩, ⟨9⟩, ⟨11⟩, ⟨12⟩] ∧
    accepts (segmentStream 10 2 Nat.two_pos 9 [])
      = [(⟨10⟩, ⟨10⟩), (⟨9⟩, ⟨9⟩), (⟨10⟩, ⟨10⟩), (⟨11⟩, ⟨11⟩), (⟨12⟩, ⟨12⟩)] ∧
    yields (segmentStream 8 1 Nat.one_pos 10 [0]) = [⟨8⟩, ⟨9⟩, ⟨10⟩, ⟨10⟩, ⟨11⟩, ⟨12⟩] :=
  ⟨ScriptedCollector.reports_from overlapBlocks (by decide), rfl, by decide +kernel,
    by decide +kernel, by decide +kernel⟩

/-- One stored block, and an overlap that starts with two equal events. -/
def overlappedBlocks : List (List ValueSet) :=
  [[⟨5⟩], [⟨10⟩], [⟨20⟩, ⟨20⟩], [], [⟨40⟩], [⟨50⟩], [⟨60⟩]]

def overlappedArchive : Archive BlockPosition :=
  ⟨[(1, ⟨[.text "0xa", .text "\x7b\"value\":\"0xa\"\x7d"]⟩)], some ⟨1⟩⟩

theorem overlapped_history : History (Record.inferred ValueSet.table) overlappedArchive
    [((⟨1⟩ : BlockPosition), (⟨10⟩ : ValueSet))] where
  rows := by decide +kernel
  sorted := List.pairwise_singleton _ _
  covered x hx := by
    rw [List.mem_singleton.mp hx]
    exact ⟨_, rfl, by decide⟩
  readable x hx := by
    rw [List.mem_singleton.mp hx]
    decide +kernel
  fits l hl := by
    obtain rfl := Option.some.inj hl
    decide

/-- A source whose live stream starts at block 2 before the tip 3 is read. -/
def overlappedSource : ScriptedCollector ValueSet := .from overlappedBlocks 2 3

def overlappedStore : MemoryStore BlockPosition := .holding overlappedArchive

def overlappedWrapper : Persisted Record := scriptedWrapper 1 2 Nat.two_pos none

theorem segments_exact_overlapped : ∃ (sub : Subscription BlockPosition ValueSet) (c : _),
    overlappedWrapper.subscribe overlappedSource overlappedStore = (.ok sub, c) ∧
      sub.replay = [⟨10⟩] ∧ yields sub.synced = [⟨20⟩, ⟨20⟩, ⟨40⟩, ⟨50⟩, ⟨60⟩] ∧
      heldEvents sub.synced 2 = [⟨20⟩, ⟨20⟩] := by
  have hok : (overlappedWrapper.subscribe overlappedSource overlappedStore :
      Except Error (Subscription BlockPosition ValueSet) × _).1.isOk := by decide +kernel
  obtain ⟨sub, c, hsub, -⟩ := stream_of_ok hok
  have hread : Readable (P := BlockPosition) overlappedStore
      (RecordOps.table ValueSet (Record.inferred ValueSet.table)) :=
    ⟨rfl, fun _ => ⟨_, rfl⟩⟩
  have hclean : overlappedStore.fails = [] := rfl
  have hrecord : ValueSet.Records (.inferred ValueSet.table) := Or.inl rfl
  have hc : ScriptedCollector.Reports overlappedBlocks overlappedSource :=
    ScriptedCollector.reports_from overlappedBlocks (by decide)
  obtain ⟨hreplay, hyields, -, hheld⟩ := segments_exact
    (ScriptedCollector.nonReorganising overlappedBlocks) (fun c _ a b => ⟨_, c, rfl⟩)
    MemoryStore.reliable (ValueSet.encodes _) rfl rfl rfl hrecord hc
    (fun k hk => Nat.lt_trans (lt_length_of_chainOf hk) (by decide)) hclean rfl hread
    overlapped_history rfl rfl (by decide) (by decide)
    (fun q hq => by
      obtain rfl := Option.some.inj hq
      decide)
    (fun cut hcut => by
      obtain rfl : 1 = cut := Option.some.inj hcut
      decide) (by decide) hsub
  refine ⟨sub, c, hsub, hreplay, ?_, ?_⟩
  · rw [hyields]
    decide +kernel
  · rw [hheld (by decide)]
    decide +kernel

end ArtemisLight
