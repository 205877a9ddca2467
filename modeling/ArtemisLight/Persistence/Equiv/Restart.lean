import ArtemisLight.Persistence.Equiv.Subscribe
import ArtemisLight.Persistence.Scripted
import ArtemisLight.Persistence.Writer.Equiv.Stored

/-!
# Crashes and restarts

A run is a subscribe whose stream is consumed up to some point; a crash leaves the archive with the
writes made so far.  `Reachable` closes the empty archive under runs against one fixed chain, and
`Synced` is the invariant it carries: what is stored is the chain up to the stored position.
-/

namespace ArtemisLight

variable {τ σ ρ E : Type}

/-! ### The archive of a store under a trace -/

/-- Replayed events write nothing. -/
theorem writes_yielded {P : Type} (events : List E) :
    writes (events.map .yielded : List (Effect P E)) = [] := by
  unfold writes
  rw [List.filterMap_eq_nil_iff]
  intro x hx
  obtain ⟨e, -, rfl⟩ := List.mem_map.mp hx
  rfl

theorem Archive.after_of_writes {P : Type} [Position P] (a : Archive P)
    {effects : List (Effect P E)}
    (h : writes effects = []) : a.after effects = a := by
  rw [Archive.after, h]
  rfl

/-- What a part of a stream adds to the archive comes from the backfill and live segments. -/
theorem Archive.after_effects {P : Type} [Position P] (a : Archive P) {sub : Subscription P E}
    {effects : List (Effect P E)} (h : effects <+: sub.effects) :
    ∃ synced, synced <+: sub.synced ∧ a.after effects = a.after synced := by
  obtain ⟨t, ht⟩ := h
  rcases List.append_eq_append_iff.mp ht with ⟨rest, hrest, -⟩ | ⟨synced, rfl, hsynced⟩
  · refine ⟨[], List.nil_prefix, ?_⟩
    have hw := writes_yielded (P := P) sub.replay
    rw [hrest, writes_append, List.append_eq_nil_iff] at hw
    rw [a.after_of_writes hw.1]
    rfl
  · refine ⟨synced, ⟨t, hsynced.symm⟩, ?_⟩
    rw [Archive.after_append, a.after_of_writes (writes_yielded _)]

/-- A subscribe that does something has succeeded. -/
theorem stream_cases {P : Type} [Position P] [PersistableCollector τ P E] [Store σ P]
    [RecordOps ρ E]
    (p : Persisted ρ) (c : τ) (store : σ) : p.stream c store = ([] : List (Effect P E)) ∨
      ∃ (sub : Subscription P E) (c' : τ), p.subscribe c store = (.ok sub, c') ∧
        p.stream c store = sub.effects := by
  unfold Persisted.stream
  rcases h : (p.subscribe c store : Except Error (Subscription P E) × τ) with ⟨e | sub, c'⟩
  · exact Or.inl rfl
  · exact Or.inr ⟨sub, c', rfl, rfl⟩

/-! ### The store that a run leaves -/

section Left

variable {P : Type} [Position P] [RecordOps ρ E]

/-- The writers at the end of the backfill and live segments. -/
def Persisted.pipeline [Store σ P] (p : Persisted ρ) (store : σ) (record : ρ)
    (finalCut : Option Nat) (last : Option P) (backfill : List (P × E)) (outcome : ChunkEnd)
    (live : List (Indexed P E)) : Pipeline σ ρ P E :=
  match outcome with
  | .exhausted => persistAndEmit backfill live store record p.confirmationDepth finalCut last
  | .poisoned => persistAndEmit backfill [] store record p.confirmationDepth finalCut last
  | .unfinished =>
    backfill.foldl (Pipeline.backfillStep finalCut)
      (Pipeline.start store record p.confirmationDepth finalCut last)

theorem Persisted.pipeline_effects [Store σ P] (p : Persisted ρ) (store : σ) (record : ρ)
    (finalCut : Option Nat) (last : Option P) (backfill : List (P × E)) (outcome : ChunkEnd)
    (live : List (Indexed P E)) :
    (p.pipeline store record finalCut last backfill outcome live).io.effects
      = p.synced store record finalCut last backfill outcome live := by
  cases outcome <;> rfl

/-- The store that a run leaves holds the archive with the run's writes committed. -/
theorem Persisted.archive_pipeline [Archival σ P] (p : Persisted ρ) (store : σ) (record : ρ)
    (finalCut : Option Nat) (last : Option P) (backfill : List (P × E)) (outcome : ChunkEnd)
    (live : List (Indexed P E)) :
    Archival.archive (p.pipeline store record finalCut last backfill outcome live).io.store
        (RecordOps.table E record)
      = (Archival.archive store (RecordOps.table E record)).after
          (p.synced store record finalCut last backfill outcome live) := by
  rw [← p.pipeline_effects]
  cases outcome with
  | exhausted => exact archive_persistAndEmit backfill live store record _ last
  | poisoned => exact archive_persistAndEmit backfill [] store record _ last
  | unfinished => exact archive_backfill backfill store record _ last

/-- A subscription consumed to its end leaves a store for the next one. -/
theorem subscribe_leaves [PersistableCollector τ P E] [Archival σ P] {p : Persisted ρ} {record : ρ}
    (hrec : p.record = .ok record) {c c' : τ} {store : σ} {sub : Subscription P E}
    (hsub : p.subscribe c store = (.ok sub, c')) :
    ∃ finalCut last backfill outcome live,
      (p.pipeline store record finalCut last backfill outcome live).io.effects = sub.synced ∧
        Archival.archive (p.pipeline store record finalCut last backfill outcome live).io.store
            (RecordOps.table E record)
          = (Archival.archive store (RecordOps.table E record)).after sub.effects := by
  obtain ⟨record', live, c₁, tip, c₂, last, backfill, outcome, hrec', -, -, -, -, -, hsynced⟩ :=
    subscribe_ok hsub
  obtain rfl := Except.ok.inj (hrec.symm.trans hrec')
  refine ⟨p.finalCut (Position.sortKey tip), last, backfill, outcome, live, ?_, ?_⟩
  · rw [p.pipeline_effects, hsynced]
  · rw [p.archive_pipeline, Subscription.effects, Archive.after_append,
      Archive.after_of_writes _ (writes_yielded _), hsynced]

end Left

/-! ### Runs -/

section Runs

variable [PersistableCollector τ BlockPosition E] [Archival σ BlockPosition] [RecordOps ρ E]

/-- The archives that runs over one store can leave behind.  The wrapper, the collector and the
store handle of every run are new, apart from the table and the start block. -/
inductive Reachable (σ ρ : Type) [Archival σ BlockPosition] [RecordOps ρ E] (chain : Nat → List E)
    (H : τ → Prop) (start : Nat) (table : String) : Archive BlockPosition → Prop
  | empty : Reachable σ ρ chain H start table .empty
  | run {a : Archive BlockPosition} (ha : Reachable σ ρ chain H start table a) {p : Persisted ρ}
      (hstart : p.startBlock = start) {record : ρ} (hrec : p.record = .ok record)
      (htable : RecordOps.table E record = table) {c : τ} (hc : H c)
      (hsmall : SmallHeights chain p c) {store : σ} (hstore : Archival.archive store table = a)
      {effects : List (Effect BlockPosition E)} (hpre : effects <+: p.stream c store) :
      Reachable σ ρ chain H start table (a.after effects)

/-- One run's end is the next run's store. -/
theorem Reachable.next {chain : Nat → List E} {H : τ → Prop} {start : Nat} {p : Persisted ρ}
    (hstart : p.startBlock = start) {record : ρ} (hrec : p.record = .ok record) {c c' : τ}
    (hc : H c) (hsmall : SmallHeights chain p c) {store : σ}
    (h : Reachable σ ρ chain H start (RecordOps.table E record)
      (Archival.archive store (RecordOps.table E record)))
    {sub : Subscription BlockPosition E} (hsub : p.subscribe c store = (.ok sub, c')) :
    ∃ finalCut last backfill outcome live,
      (p.pipeline store record finalCut last backfill outcome live).io.effects = sub.synced ∧
        Reachable σ ρ chain H start (RecordOps.table E record)
          (Archival.archive (p.pipeline store record finalCut last backfill outcome live).io.store
            (RecordOps.table E record)) := by
  obtain ⟨finalCut, last, backfill, outcome, live, heffects, harchive⟩ :=
    subscribe_leaves hrec hsub
  refine ⟨finalCut, last, backfill, outcome, live, heffects, ?_⟩
  rw [harchive]
  refine .run h hstart hrec rfl hc hsmall rfl ?_
  rw [Persisted.stream, hsub]

/-- The archive is the chain from `start` up to the stored position, and nothing without one. -/
structure Synced (ρ : Type) [RecordOps ρ E] (chain : Nat → List E) (start : Nat)
    (a : Archive BlockPosition) : Prop where
  empty : a.position = none → a.rows = []
  rows : ∀ w ∈ a.position, (a.rows.filter fun r => decide (start ≤ r.1)).map keyed
    = (chainEvents chain start w.block).map (stored ρ)

variable {chain : Nat → List E} {H : τ → Prop} {start : Nat} {a : Archive BlockPosition}

/-- Whatever part of a stream over a fixed chain is consumed, it appends to the archive the chain's
events from the first missing height up to the new stored position. -/
theorem extends_stream (hH : NonReorganising chain H) {p : Persisted ρ} {c : τ}
    (hc : H c) (hsmall : SmallHeights chain p c) {record : ρ} (hrec : p.record = .ok record)
    {store : σ}
    (ha : Archival.archive store (RecordOps.table E record) = a)
    {effects : List (Effect BlockPosition E)} (hpre : effects <+: p.stream c store) :
    a.after effects = a ∨
      ∃ w, ExtendsTo ρ chain (p.firstMissing a.position) a w (a.after effects) := by
  rcases stream_cases (E := E) (P := BlockPosition) p c store with hnil | ⟨sub, c', hsub, hstream⟩
  · rw [hnil, List.prefix_nil] at hpre
    exact Or.inl (by rw [hpre]; rfl)
  · rw [hstream] at hpre
    obtain ⟨synced, hsynced, hafter⟩ := Archive.after_effects a hpre
    rw [hafter]
    exact extends_subscribe hH hc hsmall hrec ha hsub hsynced

/-- An archive extended from its resume point on stays synced. -/
theorem Synced.extends (h : Synced ρ chain start a) {p : Persisted ρ}
    (hstart : p.startBlock = start)
    {w : BlockPosition} {b : Archive BlockPosition}
    (hext : ExtendsTo ρ chain (p.firstMissing a.position) a w b) : Synced ρ chain start b := by
  obtain ⟨hw, hpos, new, rfl, hnew, hrows⟩ := hext
  refine ⟨fun hn => absurd hn (by simp), fun w' hw' => ?_⟩
  · obtain rfl := Option.some.inj hw'
    rw [List.filter_append, List.map_append]
    rcases hq : a.position with _ | q
    · have hfrom : p.firstMissing (none : Option BlockPosition) = start := by
        simp [Persisted.firstMissing, hstart]
      rw [hq, hfrom] at hrows
      rw [h.empty hq, hrows]
      rfl
    · have hfrom : p.firstMissing (some q) = max (q.block + 1) start := by
        simp [Persisted.firstMissing, hstart]
      rw [hq, hfrom] at hrows
      -- every new row lies above the old position
      have hfilter : new.filter (fun r => decide (start ≤ r.1))
          = new.filter fun r => decide (max (q.block + 1) start ≤ r.1) := by
        refine List.filter_congr fun r hr => ?_
        have := hnew q hq r hr
        simp only [decide_eq_decide]
        omega
      rw [hfilter, hrows, h.rows q hq, ← List.map_append]
      congr 1
      have hqw := hpos q hq
      by_cases hs : start ≤ q.block + 1
      · rw [Nat.max_eq_left hs, chainEvents_append hs (by omega)]
      · rw [Nat.max_eq_right (by omega), chainEvents_of_lt (by omega), List.nil_append]

/-- Every archive that runs leave behind is synced. -/
theorem Reachable.synced (hH : NonReorganising chain H) {table : String}
    (h : Reachable σ ρ chain H start table a) : Synced ρ chain start a := by
  induction h with
  | empty => exact ⟨fun _ => rfl, fun w hw => absurd hw (by simp [Archive.empty])⟩
  | run _ hstart hrec htable hc hsmall hstore hpre ih =>
    subst htable
    rcases extends_stream hH hc hsmall hrec hstore hpre with heq | ⟨w, hext⟩
    · rw [heq]
      exact ih
    · exact ih.extends hstart hext

/-- At every moment of any number of runs over one store, cut off anywhere, with writes and
encodings failing anywhere, the rows stored from the start block on are the chain's events up to the
stored position, each once and in order; without a stored position there are no rows. -/
theorem archive_gap_free (hH : NonReorganising chain H) {table : String}
    (h : Reachable σ ρ chain H start table a) :
    (a.position = none → a.rows = []) ∧ ∀ w ∈ a.position,
      (a.rows.filter fun r => decide (start ≤ r.1)).map keyed
        = (chainEvents chain start w.block).map (stored ρ) :=
  ⟨(h.synced hH).empty, (h.synced hH).rows⟩

end Runs

/-! ### A run that fails and a run that follows it -/

def restartedBlocks : List (List ValueSet) :=
  [[⟨5⟩], [⟨10⟩], [⟨20⟩, ⟨20⟩], [], [⟨40⟩], [⟨50⟩], [⟨60⟩]]

/-- The second write of the first run fails, which halts it. -/
def failedArchive : Archive BlockPosition :=
  Archive.empty.after ((scriptedWrapper 1 1 Nat.one_pos none).stream (E := ValueSet)
    (ScriptedCollector.from restartedBlocks 3 4) (MemoryStore.new [1] : MemoryStore BlockPosition))

/-- The next run completes the archive. -/
def restartedArchive : Archive BlockPosition :=
  failedArchive.after ((scriptedWrapper 1 1 Nat.one_pos none).stream (E := ValueSet)
    (ScriptedCollector.from restartedBlocks 3 4) (MemoryStore.holding failedArchive))

theorem archive_gap_free_restarted :
    failedArchive.position = some ⟨1⟩ ∧ restartedArchive.position = some ⟨5⟩ ∧
      (restartedArchive.rows.filter fun r => decide (1 ≤ r.1)).map keyed
        = (chainEvents (chainOf restartedBlocks) 1 5).map (stored Record) := by
  have hpos : restartedArchive.position = some ⟨5⟩ := by decide +kernel
  have hsmall : SmallHeights (chainOf restartedBlocks) (scriptedWrapper 1 1 (by decide) none)
      (ScriptedCollector.from restartedBlocks 3 4) :=
    ScriptedCollector.smallHeights (c := .from restartedBlocks 3 4) (by decide) (by decide)
  have hc : ScriptedCollector.Reports restartedBlocks (.from restartedBlocks 3 4) :=
    ScriptedCollector.reports_from restartedBlocks (by decide)
  have hfailed : Reachable (MemoryStore BlockPosition) Record (chainOf restartedBlocks)
      (ScriptedCollector.Reports restartedBlocks) 1 ValueSet.table failedArchive :=
    .run .empty rfl rfl rfl hc hsmall rfl (List.prefix_refl _)
  have hrestarted : Reachable (MemoryStore BlockPosition) Record (chainOf restartedBlocks)
      (ScriptedCollector.Reports restartedBlocks) 1 ValueSet.table restartedArchive :=
    .run hfailed rfl rfl rfl hc hsmall rfl (List.prefix_refl _)
  exact ⟨by decide +kernel, hpos, (archive_gap_free
    (ScriptedCollector.nonReorganising restartedBlocks) hrestarted).2 ⟨5⟩ hpos⟩

end ArtemisLight
