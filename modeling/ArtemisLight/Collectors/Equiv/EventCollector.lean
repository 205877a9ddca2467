import ArtemisLight.Collectors.EventCollector
import ArtemisLight.Persistence.Equiv.ShallowReorg
import ArtemisLight.Persistence.Equiv.SliceLoop

/-!
# Event collectors over a lawful node

A lawful node reports an evolution of its chain log by log: a block's events, and each event of a
removed block again with the `removed` flag (`ReportedLogs`).  Between the tip query and the end of
the backfill it answers from one snapshot, and refuses only windows that are too large
(`LawfulNode`).  A persisted event collector over such a node stores the canonical chain.
-/

namespace ArtemisLight

open CanonicalChain EventCollector

variable {π F σ ρ E : Type}

/-! ### The logs of an evolution -/

/-- The logs of a raw stream: those that decode and have a block number. -/
def indexable (raw : List (Except Error (E × Log))) : List (E × Log) :=
  (raw.filterMap Except.toOption).filter fun x => x.2.blockNumber.isSome

/-- The logs in which a node reports an evolution.  The removed events of a reorg come in any
order. -/
inductive ReportedLogs : CanonicalChain E → List (Turn E) → List (E × Log) → Prop where
  | done (c : CanonicalChain E) : ReportedLogs c [] []
  | extend {c : CanonicalChain E} (events : List E) {turns : List (Turn E)}
      {logs : List (E × Log)} : ReportedLogs (c.turn (.extend events)) turns logs →
      ReportedLogs c (.extend events :: turns)
        (events.map (fun e => (e, ⟨some c.next, false⟩)) ++ logs)
  | reorg {c : CanonicalChain E} (key : Nat) (removed : List (BlockPosition × E))
      {turns : List (Turn E)} {logs : List (E × Log)} :
      removed.Perm (chainEvents c.block key (c.next - 1)) →
      ReportedLogs (c.turn (.reorg key (removed.map fun x => x.1.block))) turns logs →
      ReportedLogs c (.reorg key (removed.map fun x => x.1.block) :: turns)
        (removed.map (fun x => (x.2, ⟨some x.1.block, true⟩)) ++ logs)

/-- What cannot be indexed is left out of the stream. -/
theorem filterMap_rawItem (raw : List (Except Error (E × Log))) :
    raw.filterMap rawItem = (indexable raw).filterMap fun x => liveItem x.1 x.2 := by
  induction raw with
  | nil => rfl
  | cons x raw ih =>
    rcases x with e | ⟨event, ⟨number, removed⟩⟩
    · exact ih
    · cases number with
      | none => exact ih
      | some block =>
        simp only [indexable, List.filterMap_cons, rawItem, Except.toOption, List.filter_cons]
          at ih ⊢
        cases removed <;> simp [liveItem, ih]

/-- The items of an evolution's logs are those of its live stream, and its reorgs are reported event
by event. -/
theorem ReportedLogs.live {c : CanonicalChain E} {turns : List (Turn E)} {logs : List (E × Log)}
    (h : ReportedLogs c turns logs) :
    (logs.filterMap fun x => liveItem x.1 x.2) = c.live turns ∧ c.Lawful turns := by
  induction h with
  | done c => exact ⟨rfl, trivial⟩
  | @extend c events turns logs _ ih =>
    refine ⟨?_, trivial, ih.2⟩
    rw [List.filterMap_append, ih.1, List.filterMap_map]
    simp only [CanonicalChain.live, CanonicalChain.items, asLive, List.map_map]
    exact congrArg (· ++ _) (congrFun List.filterMap_eq_map events)
  | @reorg c key removed turns logs hperm _ ih =>
    refine ⟨?_, hperm.map _, ih.2⟩
    rw [List.filterMap_append, ih.1, List.filterMap_map]
    simp only [CanonicalChain.live, CanonicalChain.items, List.map_map]
    exact congrArg (· ++ _) (congrFun List.filterMap_eq_map removed)

/-! ### Sources that refuse only large windows -/

section Windows

variable {τ P : Type} [Position P] [PersistableCollector τ P E] {H : τ → Prop}

/-- A range query of a collector in `H` fails only if its window is too large and can be halved. -/
structure Splittable (P E : Type) [Position P] [PersistableCollector τ P E] (H : τ → Prop) : Prop
    where
  closed : ∀ c, H c → ∀ a b : P, H (PersistableCollector.queryRange (E := E) c a b).2
  refuses : ∀ c, H c → ∀ (a b : P) e c',
    (PersistableCollector.queryRange c a b : Except Error (List (P × E)) × τ) = (.error e, c') →
      Position.sortKey a < Position.sortKey b ∧ isResponseSizeError e = true

/-- Halving ends at windows that are answered. -/
theorem Splittable.aux (hS : Splittable P E H)
    (hkey : ∀ k, Position.sortKey (Position.fromSortKey k : P) = k) (fuel : Nat) :
    ∀ c lo hi, H c → lo ≤ hi → hi - lo ≤ fuel → ∃ (stream : List (P × E)) (c' : τ),
      queryRangeSplitAux fuel c lo hi = (.ok stream, c') ∧ H c' := by
  induction fuel with
  | zero =>
    intro c lo hi hc hle hfuel
    have hcl := hS.closed c hc (Position.fromSortKey lo) (Position.fromSortKey hi)
    unfold queryRangeSplitAux
    rcases hq : PersistableCollector.queryRange (E := E) c (Position.fromSortKey lo : P)
      (Position.fromSortKey hi) with ⟨e | stream, c'⟩
    · have hlt := (hS.refuses c hc _ _ e c' hq).1
      rw [hkey, hkey] at hlt
      omega
    · rw [hq] at hcl
      exact ⟨stream, c', rfl, hcl⟩
  | succ fuel ih =>
    intro c lo hi hc hle hfuel
    have hcl := hS.closed c hc (Position.fromSortKey lo) (Position.fromSortKey hi)
    unfold queryRangeSplitAux
    rcases hq : PersistableCollector.queryRange (E := E) c (Position.fromSortKey lo : P)
      (Position.fromSortKey hi) with ⟨e | stream, c'⟩
    · obtain ⟨hlt, hsize⟩ := hS.refuses c hc _ _ e c' hq
      rw [hkey, hkey] at hlt
      rw [hq] at hcl
      -- the window is halved, and the fuel is enough for both halves
      obtain ⟨left, c₁, hleft, hc₁⟩ := ih c' lo (lo + (hi - lo) / 2) hcl (by omega) (by omega)
      obtain ⟨right, c₂, hright, hc₂⟩ := ih c₁ (lo + (hi - lo) / 2 + 1) hi hc₁ (by omega) (by omega)
      refine ⟨left ++ right, c₂, ?_, hc₂⟩
      simp only [hlt, hsize, and_self, if_true, hleft, hright]
    · rw [hq] at hcl
      exact ⟨stream, c', rfl, hcl⟩

theorem Splittable.answers (hS : Splittable P E H)
    (hkey : ∀ k, Position.sortKey (Position.fromSortKey k : P) = k) (lo hi : Nat) :
    AnswersWindows P E H lo hi :=
  fun c hc a b _ hab _ => hS.aux hkey (b - a) c a b hc hab (Nat.le_refl _)

/-- Where every window is answered, none poisons the loop. -/
theorem chunkLoop_not_poisoned {lo hi chunk : Nat} (hA : AnswersWindows P E H lo hi)
    (hmax : hi < u64Max) (fuel : Nat) : ∀ (c : τ) (start : Nat), H c → lo ≤ start →
      (chunkLoop (P := P) (E := E) fuel c start hi chunk).1.2 ≠ .poisoned := by
  induction fuel with
  | zero =>
    intro c start _ _
    unfold chunkLoop
    split <;> simp
  | succ fuel ih =>
    intro c start hc hlo
    unfold chunkLoop
    split
    · rename_i hle
      obtain ⟨hge, hend⟩ := windowEnd_bounds chunk hle hmax
      obtain ⟨window, c', hq, hc'⟩ := hA c hc start (windowEnd start hi chunk) hlo hge hend
      simp only [hq]
      exact ih c' _ hc' (by rw [saturatingAdd_windowEnd hmax]; omega)
    · simp

/-- The backfill of an exact source that refuses only large windows is the whole gap. -/
theorem backfillSegment_splittable {events : Nat → List (P × E)} (hX : ExactSource events H)
    (hS : Splittable P E H) (hkey : ∀ k, Position.sortKey (Position.fromSortKey k : P) = k)
    {lo hi chunk : Nat} (hmax : hi < u64Max) (hchunk : 0 < chunk) {c c' : τ} (hc : H c)
    {backfill : List (P × E)} {outcome : ChunkEnd}
    (h : backfillSegment c lo hi chunk = (.ok (backfill, outcome), c')) :
    outcome = .exhausted ∧ backfill = eventsIn events lo hi := by
  unfold backfillSegment at h
  split at h
  · rename_i hlt
    obtain ⟨rfl, rfl⟩ := Prod.mk.inj (Except.ok.inj (Prod.mk.inj h).1)
    exact ⟨rfl, (eventsIn_of_lt hlt).symm⟩
  · rename_i hle
    have hle : lo ≤ hi := Nat.le_of_not_lt hle
    have hsliced := sliced_chunkedQuery hX hkey hle hmax hchunk ⟨c, []⟩ hc rfl
    -- the log of the windows tells a whole backfill from a poisoned one
    have hsame := chunkedQuery_logged (P := P) (E := E) (⟨c, []⟩ : Logged τ) lo hi chunk
    have hnot : outcome ≠ .poisoned := by
      obtain ⟨hge, hend⟩ := windowEnd_bounds chunk hle hmax
      obtain ⟨first, c₁, hq, hc₁⟩ := hS.answers hkey lo hi c hc lo _ (Nat.le_refl _) hge hend
      have hloop : (chunkLoop (P := P) (E := E) (hi - windowEnd lo hi chunk) c₁
          (windowEnd lo hi chunk + 1) hi chunk).1.2 ≠ .poisoned :=
        chunkLoop_not_poisoned (hS.answers hkey lo hi) hmax _ c₁ _ hc₁ (by omega)
      simp only [chunkedQuery, hq, saturatingAdd_windowEnd hmax] at h
      rw [← (Prod.mk.inj (Except.ok.inj (Prod.mk.inj h).1)).2]
      exact hloop
    rw [hsame] at h
    have hr := (Prod.mk.inj h).1
    rw [hr] at hsliced
    generalize (chunkedQuery (P := P) (E := E) (⟨c, []⟩ : Logged τ) lo hi chunk).2.calls = log
      at hsliced
    cases hsliced with
    | whole _ _ => exact ⟨rfl, rfl⟩
    | poisoned => exact absurd rfl hnot

end Windows

/-! ### Lawful nodes -/

/-- A node that reports the evolution of `c` through `before` and `after` to whoever opens a stream
in a state of `Open`, and from then on (`Snap`) answers from the chain after the turns `before`. -/
structure LawfulNode [LogProvider π F E] (c : CanonicalChain E) (before after : List (Turn E))
    (filter : F) (Open Snap : π → Prop) : Prop where
  /-- A node without pubsub refuses the subscription. -/
  subscribe : ∀ n, Open n → ∀ (r : Except Error (List (Except Error (E × Log)))) n',
    LogProvider.subscribe n filter = (r, n') → match r with
      | .ok raw => ReportedLogs c (before ++ after) (indexable raw) ∧ Snap n'
      | .error _ => Open n'
  watch : ∀ n, Open n → ∀ (raw : List (Except Error (E × Log))) n',
    LogProvider.watch n filter = (.ok raw, n') →
      ReportedLogs c (before ++ after) (indexable raw) ∧ Snap n'
  number : ∀ n, Snap n → ∀ (r : Except Error Nat) n', LogProvider.getBlockNumber F E n = (r, n') →
    Snap n' ∧ ∀ t, r = .ok t → (c.run before).next = t + 1
  query : ∀ n, Snap n → ∀ (a b : Nat) (r : Except Error (List (E × Log))) n',
    LogProvider.query n filter a b = (r, n') → Snap n' ∧ match r with
      | .ok logs => (logs.filterMap fun x => indexedEvent x.1 x.2)
          = (chainEvents (c.run before).block a b).map fun x => (x.1.block, x.2)
      | .error e => a < b ∧ isResponseSizeError e = true

namespace LawfulNode

variable [LogProvider π F E] {c : CanonicalChain E} {before after : List (Turn E)} {filter : F}
  {Open Snap : π → Prop}

/-- Either way the collector opens its stream, the stream is the live stream of the evolution. -/
theorem live (h : LawfulNode c before after filter Open Snap) {n : π} (hn : Open n)
    {items : List (Indexed BlockPosition E)} {c' : EventCollector π F E}
    (hsub : (⟨n, filter⟩ : EventCollector π F E).indexedStream = (.ok items, c')) :
    items = c.live (before ++ after) ∧ c.Lawful (before ++ after) ∧ Snap c'.provider ∧
      c'.filter = filter := by
  have hraw : ∀ (raw : List (Except Error (E × Log))) n',
      ReportedLogs c (before ++ after) (indexable raw) ∧ Snap n' →
        (.ok (raw.filterMap rawItem), (⟨n', filter⟩ : EventCollector π F E))
          = ((.ok items : Except Error (List (Indexed BlockPosition E))), c') →
        items = c.live (before ++ after) ∧ c.Lawful (before ++ after) ∧ Snap c'.provider ∧
          c'.filter = filter := by
    rintro raw n' ⟨hlogs, hsnap⟩ heq
    obtain ⟨hitems, rfl⟩ := Prod.mk.inj heq
    rw [Except.ok.injEq, filterMap_rawItem, hlogs.live.1] at hitems
    exact ⟨hitems.symm, hlogs.live.2, hsnap, rfl⟩
  unfold indexedStream rawStream subscribeOrPoll at hsub
  rcases hs : (LogProvider.subscribe n filter : Except Error (List (Except Error (E × Log))) × π)
    with ⟨e | raw, n'⟩
  -- without pubsub the node is polled
  · have hopen : Open n' := h.subscribe n hn _ n' hs
    rcases hw : (LogProvider.watch n' filter : Except Error (List (Except Error (E × Log))) × π)
      with ⟨e' | raw, n''⟩
    · simp only [hs, hw] at hsub
      exact absurd (Prod.mk.inj hsub).1 (by simp)
    · simp only [hs, hw] at hsub
      exact hraw raw n'' (h.watch n' hopen raw n'' hw) hsub
  · simp only [hs] at hsub
    exact hraw raw n' (h.subscribe n hn _ n' hs) hsub

/-- The collectors over the node while it answers from the snapshot. -/
def Settled (Snap : π → Prop) (filter : F) (col : EventCollector π F E) : Prop :=
  Snap col.provider ∧ col.filter = filter

theorem exactSource (h : LawfulNode (E := E) c before after filter Open Snap) :
    ExactSource (fun k => ((c.run before).block k).map fun e => ((⟨k⟩ : BlockPosition), e))
      (Settled (E := E) Snap filter) where
  query_closed := by
    rintro ⟨n, filter⟩ ⟨hn, rfl⟩ a b
    exact ⟨(h.query n hn a.block b.block _ _ rfl).1, rfl⟩
  query_exact := by
    rintro ⟨n, filter⟩ ⟨hn, rfl⟩ a b stream c' hq
    rcases hr : (LogProvider.query n filter a.block b.block : Except Error (List (E × Log)) × π)
      with ⟨e | logs, n'⟩
    · simp only [PersistableCollector.queryRange, hr] at hq
      exact absurd (Prod.mk.inj hq).1 (by simp [Except.map])
    · have hlogs : (logs.filterMap fun x => indexedEvent x.1 x.2) = _ :=
        (h.query n hn _ _ _ n' hr).2
      simp only [PersistableCollector.queryRange, hr, Except.map, hlogs, List.map_map] at hq
      rw [← Except.ok.inj (Prod.mk.inj hq).1]
      exact List.map_id' _

theorem splittable (h : LawfulNode (E := E) c before after filter Open Snap) :
    Splittable BlockPosition E (Settled (E := E) Snap filter) where
  closed := h.exactSource.query_closed
  refuses := by
    rintro ⟨n, filter⟩ ⟨hn, rfl⟩ a b e c' hq
    rcases hr : (LogProvider.query n filter a.block b.block : Except Error (List (E × Log)) × π)
      with ⟨e' | logs, n'⟩
    · simp only [PersistableCollector.queryRange, hr] at hq
      rw [← Except.error.inj (Prod.mk.inj hq).1]
      exact (h.query n hn _ _ _ n' hr).2
    · simp only [PersistableCollector.queryRange, hr] at hq
      exact absurd (Prod.mk.inj hq).1 (by simp [Except.map])

end LawfulNode

/-! ### The whole subscription -/

/-- The subscription of a persisted event collector to a lawful node, by pubsub or by polling, with
a backfill that may have to halve its windows: what its writers do is what they do behind the
snapshot. -/
theorem subscribe_lawful [LogProvider π F E] [Store σ BlockPosition] [RecordOps ρ E]
    {c : CanonicalChain E} {before after : List (Turn E)} {filter : F} {Open Snap : π → Prop}
    (h : LawfulNode (E := E) c before after filter Open Snap) {n : π} (hn : Open n)
    {p : Persisted ρ} (hbound : p.toBlock = none) (hmax : (c.run before).next ≤ u64Max)
    {store : σ} {sub : Subscription BlockPosition E} {c' : EventCollector π F E}
    (hsub : p.subscribe (⟨n, filter⟩ : EventCollector π F E) store = (.ok sub, c')) :
    ∃ (record : ρ) (last : Option BlockPosition) (tip : Nat), p.record = .ok record ∧
      Store.storedPosition store (RecordOps.table E record) = .ok last ∧
      (c.run before).next = tip + 1 ∧ c.Lawful (before ++ after) ∧
      sub.synced = p.evolved c before (before ++ after) tip last store record := by
  obtain ⟨record, live, c₁, tip, c₂, last, backfill, outcome, hrec, hlive, htip, hlast, -, hback,
    hsynced⟩ := subscribe_ok hsub
  rw [Persisted.liveSource_of_unbounded hbound] at hlive
  obtain ⟨rfl, hlawful, hsnap, hfilter⟩ := h.live hn hlive
  rcases hr : (LogProvider.getBlockNumber F E c₁.provider : Except Error Nat × π)
    with ⟨e | number, n'⟩
  · simp only [PersistableCollector.tip, hr] at htip
    exact absurd (Prod.mk.inj htip).1 (by simp [Except.map])
  · obtain ⟨hsnap', hnumber⟩ := h.number c₁.provider hsnap _ n' hr
    have hnext := hnumber number rfl
    simp only [PersistableCollector.tip, hr] at htip
    obtain ⟨htip', rfl⟩ := Prod.mk.inj htip
    obtain rfl : ⟨number⟩ = tip := Except.ok.inj htip'
    have heff : p.effectiveTip number = number := by
      rw [Persisted.effectiveTip, hbound]
      rfl
    simp only [BlockPosition.sortKey_eq, heff] at hback hsynced
    obtain ⟨rfl, rfl⟩ := backfillSegment_splittable h.exactSource h.splittable (fun _ => rfl)
      (by omega) p.chunk_pos (c := ⟨n', c₁.filter⟩) ⟨hsnap', hfilter⟩ hback
    exact ⟨record, last, number, hrec, hlast, hnext, hlawful, hsynced⟩

/-- A persisted event collector over a lawful node, none of whose reorgs reaches down to the stored
position, to the final cut or to what has been written: nothing halts exactly if no event is
reported at or below the stored position or the final cut, and if nothing halts, what is written is
the final chain. -/
theorem event_collector_canonical [LogProvider π F E] [Store σ BlockPosition] [RecordOps ρ E]
    {W : σ → Prop} {R : ρ → Prop} {D : E → Prop} (hW : Reliable BlockPosition W) (hR : Encodes D R)
    {c : CanonicalChain E} {before after : List (Turn E)} {filter : F} {Open Snap : π → Prop}
    (h : LawfulNode (E := E) c before after filter Open Snap) {n : π} (hn : Open n)
    {p : Persisted ρ} (hbound : p.toBlock = none) {tip : Nat}
    (hnext : (c.run before).next = tip + 1) (htip : tip < u64Max)
    (hD : ∀ k, ∀ e ∈ (c.run before).block k, D e)
    (hlive : ∀ q e, .event q e ∈ c.live (before ++ after) → D e ∧ q.block < u64Max)
    {store : σ} (hs : W store) {record : ρ} (hrec : p.record = .ok record) (hr : R record)
    {last : Option BlockPosition}
    (hlast : Store.storedPosition store (RecordOps.table E record) = .ok last)
    (hshallow : ∀ turns key removed rest, before ++ after = turns ++ .reorg key removed :: rest →
      (∀ q ∈ last, q.block < key) ∧ (∀ k ∈ p.finalCut tip, k < key) ∧
        ∀ g ∈ writes (p.evolved c before turns tip last store record), g.1.block < key)
    {sub : Subscription BlockPosition E} {c' : EventCollector π F E}
    (hsub : p.subscribe (⟨n, filter⟩ : EventCollector π F E) store = (.ok sub, c')) :
    (Clean sub.synced ↔ ∀ q e, .event q e ∈ c.live (before ++ after) →
      (∀ s ∈ last, s.block < q.block) ∧ ∀ k ∈ p.finalCut tip, k < q.block) ∧
    (Clean sub.synced →
      Canonical ρ (p.backfillFrom last) (c.run (before ++ after)) sub.synced) := by
  obtain ⟨record', last', tip', hrec', hlast', hnext', hlawful, hsynced⟩ :=
    subscribe_lawful h hn hbound (by omega) hsub
  obtain rfl : record' = record := Except.ok.inj (hrec'.symm.trans hrec)
  obtain rfl : last' = last := Except.ok.inj (hlast'.symm.trans hlast)
  obtain rfl : tip' = tip := by omega
  rw [hsynced]
  have hevolution : ShallowEvolution D p c before after tip' last' store record' :=
    ⟨hbound, hlawful, hnext, htip, hD, hlive, hshallow⟩
  exact ⟨hevolution.clean_iff hW hR hs hr, hevolution.canonical hW hR hs hr⟩

/-! ### A node without pubsub -/

/-- A node that cannot be subscribed to and whose range queries cover at most `cap` blocks. -/
structure PolledNode (E : Type) where
  raw : List (Except Error (E × Log))
  blocks : List (List E)
  cap : Nat

instance {E : Type} : LogProvider (PolledNode E) Unit E where
  subscribe n _ := (.error "pubsub unavailable", n)
  watch n _ := (.ok n.raw, n)
  query n _ a b := (if n.cap < b - a then .error "query returned more than 10000 results"
    else .ok ((chainEvents (chainOf n.blocks) a b).map fun x => (x.2, ⟨some x.1.block, false⟩)), n)
  getBlockNumber n := (.ok (n.blocks.length - 1), n)

theorem PolledNode.lawful {E : Type} {n : PolledNode E} {c : CanonicalChain E}
    {before after : List (Turn E)} (hlogs : ReportedLogs c (before ++ after) (indexable n.raw))
    (hblocks : ∀ k, (c.run before).block k = chainOf n.blocks k)
    (hnext : (c.run before).next = n.blocks.length - 1 + 1) :
    LawfulNode c before after () (· = n) (· = n) where
  subscribe := by
    rintro _ rfl r n' hr
    obtain ⟨rfl, rfl⟩ := Prod.mk.inj hr
    rfl
  watch := by
    rintro _ rfl raw n' hr
    obtain ⟨hraw, rfl⟩ := Prod.mk.inj hr
    rw [← Except.ok.inj hraw]
    exact ⟨hlogs, rfl⟩
  number := by
    rintro _ rfl r n' hr
    obtain ⟨rfl, rfl⟩ := Prod.mk.inj hr
    exact ⟨rfl, fun t ht => Except.ok.inj ht ▸ hnext⟩
  query := by
    rintro _ rfl a b r n' hr
    obtain ⟨rfl, rfl⟩ := Prod.mk.inj hr
    refine ⟨rfl, ?_⟩
    split
    · rename_i logs hlogs
      split at hlogs
      · exact absurd hlogs (by simp)
      · rw [← Except.ok.inj hlogs, List.filterMap_map, funext hblocks]
        exact congrFun List.filterMap_eq_map _
    · rename_i e he
      split at he
      · rename_i hcap
        rw [← Except.error.inj he]
        exact ⟨by omega, by decide +kernel⟩
      · exact absurd he (by simp)

/-- The race of `racingRun`, with a log that does not decode and one without a block number. -/
def racingNode : PolledNode ValueSet where
  raw := [.ok (⟨9⟩, ⟨some 9, false⟩), .ok (⟨9⟩, ⟨some 9, false⟩), .error "buffer overrun",
    .ok (⟨9⟩, ⟨some 9, true⟩), .ok (⟨9⟩, ⟨some 9, true⟩), .ok (⟨90⟩, ⟨some 9, false⟩),
    .ok (⟨100⟩, ⟨some 10, false⟩), .ok (⟨100⟩, ⟨some 10, true⟩), .ok (⟨101⟩, ⟨some 10, false⟩),
    .ok (⟨102⟩, ⟨some 10, false⟩), .ok (⟨7⟩, ⟨none, false⟩), .ok (⟨102⟩, ⟨some 10, true⟩),
    .ok (⟨90⟩, ⟨some 9, true⟩), .ok (⟨101⟩, ⟨some 10, true⟩), .ok (⟨103⟩, ⟨some 10, false⟩),
    .ok (⟨11⟩, ⟨some 11, false⟩), .ok (⟨12⟩, ⟨some 12, false⟩)]
  blocks := [[⟨0⟩], [⟨1⟩], [⟨2⟩], [⟨3⟩], [⟨4⟩], [⟨5⟩], [⟨6⟩], [⟨7⟩], [⟨8⟩], [⟨90⟩], [⟨100⟩]]
  cap := 0

theorem racingNode_reports :
    ReportedLogs racingChain (turnsBefore ++ turnsAfter) (indexable racingNode.raw) := by
  refine .extend ([⟨9⟩, ⟨9⟩] : List ValueSet) ?_
  refine .reorg 9 [(⟨9⟩, (⟨9⟩ : ValueSet)), (⟨9⟩, ⟨9⟩)] (by decide +kernel) ?_
  refine .extend ([⟨90⟩] : List ValueSet) (.extend ([⟨100⟩] : List ValueSet) ?_)
  refine .reorg 10 [(⟨10⟩, (⟨100⟩ : ValueSet))] (by decide +kernel) ?_
  refine .extend ([⟨101⟩, ⟨102⟩] : List ValueSet) ?_
  refine .reorg 9 [(⟨10⟩, (⟨102⟩ : ValueSet)), (⟨9⟩, ⟨90⟩), (⟨10⟩, ⟨101⟩)] (by decide +kernel) ?_
  refine .extend ([] : List ValueSet) (.extend ([⟨103⟩] : List ValueSet) ?_)
  exact .extend ([⟨11⟩] : List ValueSet) (.extend ([⟨12⟩] : List ValueSet) (.done _))

theorem racingNode_lawful :
    LawfulNode racingChain turnsBefore turnsAfter () (· = racingNode) (· = racingNode) := by
  refine PolledNode.lawful racingNode_reports (fun k => ?_) rfl
  rcases Nat.lt_or_ge k 11 with hk | hk
  · exact (by decide +kernel : ∀ k < 11, (racingChain.run turnsBefore).block k
      = chainOf racingNode.blocks k) k hk
  · rw [(racingChain.run turnsBefore).unfilled k hk]
    by_contra hne
    exact absurd (lt_length_of_chainOf (Ne.symm hne)) (Nat.not_lt_of_le hk)

/-- The subscription to it. -/
def racingSubscription : Except Error (Subscription BlockPosition ValueSet) ×
    EventCollector (PolledNode ValueSet) Unit ValueSet :=
  (scriptedWrapper 8 2 Nat.two_pos none).subscribe ⟨racingNode, ()⟩
    (MemoryStore.new [] : MemoryStore BlockPosition)

theorem event_collector_canonical_racing :
    ∃ sub c, racingSubscription = (.ok sub, c) ∧
      (writes sub.synced).map (fun g => g.1.block) = [8, 10] ∧
      Canonical Record 8 (racingChain.run (turnsBefore ++ turnsAfter)) sub.synced := by
  have hwrites : racingSubscription.1.toOption.map (fun sub => (writes sub.synced).map
      fun g => g.1.block) = some [8, 10] := by decide +kernel
  rcases hsub : racingSubscription with ⟨e | sub, c⟩
  · rw [hsub] at hwrites
    exact absurd hwrites (by simp [Except.toOption])
  · rw [hsub] at hwrites
    have hcut : ∀ k ∈ (scriptedWrapper 8 2 Nat.two_pos none).finalCut 10, k = 8 := fun k hk =>
      (Option.some.inj hk).symm
    have hnext : (racingChain.run turnsBefore).next = 10 + 1 := rfl
    obtain ⟨hclean, hcanonical⟩ := event_collector_canonical (D := fun _ => True)
      MemoryStore.reliable (ValueSet.encodes _) racingNode_lawful rfl rfl hnext
      (by decide) (fun _ _ _ => trivial) (fun q e he => ⟨trivial, (racing_heights he).2⟩) rfl rfl
      (Or.inl rfl) rfl (fun turns key removed rest hsplit =>
        ⟨by simp [MemoryStore.new, Archive.empty],
          fun k hk => hcut k hk ▸ (racing_shallow hsplit).1, (racing_shallow hsplit).2⟩) hsub
    refine ⟨sub, c, rfl, Option.some.inj hwrites, hcanonical (hclean.mpr fun q e he => ?_)⟩
    exact ⟨by simp [MemoryStore.new, Archive.empty], fun k hk => hcut k hk ▸ (racing_heights he).1⟩

end ArtemisLight
