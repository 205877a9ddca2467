import ArtemisLight.Persistence.Equiv.Restart

/-!
# Restarts after a deep reorg

A reorg at or below the stored position halts the window.  The next subscription resumes above the
stored position, so what the archive holds up to there stays as the halted run left it.
-/

namespace ArtemisLight

variable {τ σ ρ E : Type}

/-! ### What is stored at a height -/

/-- The payloads stored at a height, in order. -/
def payloadsAt (rows : List (Nat × Row)) (k : Nat) : List (Option SqlValue) :=
  (rows.filter fun r => decide (r.1 = k)).map fun r => r.2.payload?

/-- The payloads of a block's events. -/
def payloads (ρ : Type) [RecordOps ρ E] (events : List E) : List (Option SqlValue) :=
  events.map fun e => some (.text (RecordOps.payload ρ e))

theorem payloadsAt_append (rows rows' : List (Nat × Row)) (k : Nat) :
    payloadsAt (rows ++ rows') k = payloadsAt rows k ++ payloadsAt rows' k := by
  simp [payloadsAt]

theorem payloadsAt_eq_nil {rows : List (Nat × Row)} {k : Nat} (h : ∀ r ∈ rows, r.1 ≠ k) :
    payloadsAt rows k = [] := by
  unfold payloadsAt
  rw [List.map_eq_nil_iff, List.filter_eq_nil_iff]
  intro r hr
  simpa using h r hr

/-- Rows that are a stretch of a chain hold every block of it. -/
theorem payloadsAt_of_keyed [RecordOps ρ E] {chain : Nat → List E} {rows : List (Nat × Row)}
    {lo hi k : Nat} (h : (rows.filter fun r => decide (lo ≤ r.1)).map keyed
      = (chainEvents chain lo hi).map (stored ρ)) (hlo : lo ≤ k) (hhi : k ≤ hi) :
    payloadsAt rows k = payloads ρ (chain k) := by
  have hrows : payloadsAt rows k = (((rows.filter fun r => decide (lo ≤ r.1)).map keyed).filter
      fun r => decide (r.1 = k)).map Prod.snd := by
    rw [List.filter_map, List.map_map, List.filter_filter]
    have hpred : ∀ r ∈ rows, decide (r.1 = k)
        = (((fun r : Nat × Option SqlValue => decide (r.1 = k)) ∘ keyed) r &&
          decide (lo ≤ r.1)) := by
      intro r _
      simp only [Function.comp, keyed]
      by_cases hr : r.1 = k <;> simp [hr, hlo]
    rw [payloadsAt, List.filter_congr hpred]
    rfl
  have hchain : eventsAt (chainEvents chain lo hi) k = chain k := by
    rw [eventsAt_chainEvents, if_pos ⟨hlo, hhi⟩]
  rw [hrows, h, List.filter_map, List.map_map, ← hchain, payloads, eventsAt, List.map_map]
  rfl

/-- No row lies above the stored position. -/
def Archive.Capped (a : Archive BlockPosition) : Prop :=
  ∀ r ∈ a.rows, ∃ w ∈ a.position, r.1 ≤ w.block

theorem Archive.Capped.commit {a : Archive BlockPosition} (h : a.Capped) (position : BlockPosition)
    (rows : List Row) : (a.commit position rows).Capped := by
  intro r hr
  refine ⟨_, rfl, ?_⟩
  rcases List.mem_append.mp hr with hr | hr
  · obtain ⟨w, hw, hle⟩ := h r hr
    rw [Option.mem_def.mp hw, BlockPosition.advance_some]
    exact Nat.le_trans hle (Nat.le_max_left _ _)
  · obtain ⟨row, -, rfl⟩ := List.mem_map.mp hr
    rcases a.position with _ | w
    · exact Nat.le_refl _
    · exact Nat.le_max_right _ _

theorem Archive.Capped.after {a : Archive BlockPosition} (h : a.Capped)
    (effects : List (Effect BlockPosition E)) : (a.after effects).Capped :=
  foldl_preserves Archive.Capped h fun _ g _ hb => hb.commit g.1 g.2

/-! ### Runs against any source -/

section Runs

variable [PersistableCollector τ BlockPosition E] [Archival σ BlockPosition] [RecordOps ρ E]

/-- The archives that runs over one store can leave behind, whatever the source of each reports, the
halted ones included. -/
inductive LeftBehind (τ σ ρ E : Type) [PersistableCollector τ BlockPosition E]
    [Archival σ BlockPosition] [RecordOps ρ E] (table : String) : Archive BlockPosition → Prop
  | empty : LeftBehind τ σ ρ E table .empty
  | run {a : Archive BlockPosition} (ha : LeftBehind τ σ ρ E table a) (p : Persisted ρ) (c : τ)
      {store : σ} (hstore : Archival.archive store table = a)
      {effects : List (Effect BlockPosition E)} (hpre : effects <+: p.stream c store) :
      LeftBehind τ σ ρ E table (a.after effects)

/-- One run's end is the next run's store. -/
theorem LeftBehind.next {p : Persisted ρ} {record : ρ} (hrec : p.record = .ok record) {c c' : τ}
    {store : σ}
    (h : LeftBehind τ σ ρ E (RecordOps.table E record)
      (Archival.archive store (RecordOps.table E record)))
    {sub : Subscription BlockPosition E} (hsub : p.subscribe c store = (.ok sub, c')) :
    ∃ finalCut last backfill outcome live,
      (p.pipeline store record finalCut last backfill outcome live).io.effects = sub.synced ∧
        LeftBehind τ σ ρ E (RecordOps.table E record)
          (Archival.archive (p.pipeline store record finalCut last backfill outcome live).io.store
            (RecordOps.table E record)) := by
  obtain ⟨finalCut, last, backfill, outcome, live, heffects, harchive⟩ :=
    subscribe_leaves hrec hsub
  refine ⟨finalCut, last, backfill, outcome, live, heffects, ?_⟩
  rw [harchive]
  refine .run h p c rfl ?_
  rw [Persisted.stream, hsub]

theorem LeftBehind.capped {table : String} {a : Archive BlockPosition}
    (h : LeftBehind τ σ ρ E table a) : a.Capped := by
  induction h with
  | empty => exact fun r hr => absurd hr (by simp [Archive.empty])
  | run _ _ _ _ _ ih => exact ih.after _

/-- What a restart leaves at each height: what was there up to the old stored position, and the
chain's events above it. -/
theorem ExtendsTo.at {chain : Nat → List E} {a b : Archive BlockPosition} {p : Persisted ρ}
    {w : BlockPosition} (ha : a.Capped) (h : ExtendsTo ρ chain (p.firstMissing a.position) a w b)
    {k : Nat} (hstart : p.startBlock ≤ k) (hk : k ≤ w.block) :
    payloadsAt b.rows k = if a.position.any (fun s => decide (k ≤ s.block)) then payloadsAt a.rows k
      else payloads ρ (chain k) := by
  obtain ⟨-, -, new, rfl, hnew, hrows⟩ := h
  rw [payloadsAt_append]
  by_cases hs : ∃ s ∈ a.position, k ≤ s.block
  · obtain ⟨s, hs, hle⟩ := hs
    have hnil : payloadsAt new k = [] := payloadsAt_eq_nil fun r hr => by
      have := hnew s hs r hr
      omega
    rw [if_pos (by rw [Option.mem_def.mp hs]; simpa using hle), hnil, List.append_nil]
  · have hlt : ∀ s ∈ a.position, s.block < k := fun s hs' =>
      Nat.lt_of_not_le fun hle => hs ⟨s, hs', hle⟩
    have hold : payloadsAt a.rows k = [] := payloadsAt_eq_nil fun r hr => by
      obtain ⟨s, hs', hle⟩ := ha r hr
      have := hlt s hs'
      omega
    have hfirst : p.firstMissing a.position ≤ k := by
      unfold Persisted.firstMissing
      rcases hq : a.position with _ | s
      · exact Nat.max_le.mpr ⟨Nat.zero_le _, hstart⟩
      · exact Nat.max_le.mpr ⟨hlt s hq, hstart⟩
    have hany : ¬ (a.position.any fun s => decide (k ≤ s.block)) = true := by
      rw [Option.any_eq_true]
      rintro ⟨s, hs', hle⟩
      have := hlt s hs'
      simp only [decide_eq_true_eq] at hle
      omega
    rw [if_neg hany, hold, List.nil_append, payloadsAt_of_keyed hrows hfirst hk]

/-- A restart against the chain that is now canonical heals the archive exactly when nothing was to
be healed: when the rows left at or below the stored position are the canonical chain's. -/
theorem restart_heals_iff {chain : Nat → List E} {H : τ → Prop} (hH : NonReorganising chain H)
    {p : Persisted ρ} {record : ρ} (hrec : p.record = .ok record) {a : Archive BlockPosition}
    (ha : LeftBehind τ σ ρ E (RecordOps.table E record) a) {c : τ} (hc : H c)
    (hsmall : SmallHeights chain p c) {store : σ}
    (hstore : Archival.archive store (RecordOps.table E record) = a)
    {effects : List (Effect BlockPosition E)} (hpre : effects <+: p.stream c store)
    {w : BlockPosition} (hw : (a.after effects).position = some w) (hnew : a.position ≠ some w) :
    (∀ k, p.startBlock ≤ k → k ≤ w.block →
        payloadsAt (a.after effects).rows k = payloads ρ (chain k)) ↔
      ∀ s ∈ a.position, ∀ k, p.startBlock ≤ k → k ≤ s.block →
        payloadsAt a.rows k = payloads ρ (chain k) := by
  rcases extends_stream hH hc hsmall hrec hstore hpre with heq | ⟨w', hext⟩
  · exact absurd (by rw [← heq]; exact hw) hnew
  have hsw : ∀ s ∈ a.position, s.block < w.block := by
    obtain ⟨-, hpos, new, hb, -⟩ := hext
    rw [hb, Option.some.injEq] at hw
    rwa [← hw]
  obtain rfl : w' = w := by
    obtain ⟨-, -, new, hb, -⟩ := hext
    rw [hb] at hw
    exact Option.some.inj hw
  have hat := fun k hs hk => hext.at ha.capped (k := k) hs hk
  constructor
  · intro h s hs k hk hle
    have hafter := hat k hk (Nat.le_trans hle (Nat.le_of_lt (hsw s hs)))
    rw [if_pos (by rw [Option.mem_def.mp hs]; simpa using hle)] at hafter
    rw [← hafter]
    exact h k hk (Nat.le_trans hle (Nat.le_of_lt (hsw s hs)))
  · intro h k hk hle
    rw [hat k hk hle]
    split
    · rename_i hany
      obtain ⟨s, hs, hle'⟩ := (Option.any_eq_true _ _).mp hany
      exact h s hs k hk (by simpa using hle')
    · rfl

end Runs

/-! ### A block replaced below the stored position -/

/-- The chain before the reorg. -/
def orphanedBlocks : List (List ValueSet) := [[⟨0⟩], [⟨1⟩], [⟨2⟩], [⟨3⟩], [⟨4⟩]]

/-- The chain after the reorg of block 3. -/
def canonicalBlocks : List (List ValueSet) := [[⟨0⟩], [⟨1⟩], [⟨2⟩], [⟨33⟩], [⟨44⟩], [⟨55⟩], [⟨66⟩]]

/-- Depth 1, tip 4: block 3 is settled when its retraction comes. -/
def haltedStream : List (Effect BlockPosition ValueSet) :=
  (scriptedWrapper 0 1 Nat.one_pos none).stream
    (⟨[.retract ⟨4⟩, .retract ⟨3⟩, .event ⟨3⟩ ⟨33⟩, .event ⟨4⟩ ⟨44⟩], orphanedBlocks, 4⟩ :
      ScriptedCollector ValueSet) (MemoryStore.new [] : MemoryStore BlockPosition)

def haltedArchive : Archive BlockPosition := Archive.empty.after haltedStream

def resumedStream : List (Effect BlockPosition ValueSet) :=
  (scriptedWrapper 0 1 Nat.one_pos none).stream
    (ScriptedCollector.from canonicalBlocks 5 5) (MemoryStore.holding haltedArchive)

/-- The retraction halts the window; the next run stores up to block 5 and leaves the orphaned row
of block 3 in the archive. -/
theorem orphan_survives_restart : .halted .window (.retracted ⟨3⟩ 1) ∈ haltedStream ∧
    ScriptedCollector.Reports canonicalBlocks (.from canonicalBlocks 5 5) ∧
    (haltedArchive.after resumedStream).position = some ⟨5⟩ ∧
    payloadsAt (haltedArchive.after resumedStream).rows 3
      = payloads Record (chainOf orphanedBlocks 3) ∧
    payloadsAt (haltedArchive.after resumedStream).rows 3 ≠ payloads Record
      (chainOf canonicalBlocks 3) :=
  ⟨by decide +kernel, ScriptedCollector.reports_from canonicalBlocks (by decide), by decide +kernel,
    by decide +kernel, by decide +kernel⟩

theorem restart_heals_iff_resumed :
    (∀ k, 0 ≤ k → k ≤ 5 → payloadsAt (haltedArchive.after resumedStream).rows k
      = payloads Record (chainOf canonicalBlocks k)) ↔
    ∀ s ∈ haltedArchive.position, ∀ k, 0 ≤ k → k ≤ s.block →
      payloadsAt haltedArchive.rows k = payloads Record (chainOf canonicalBlocks k) :=
  restart_heals_iff (ScriptedCollector.nonReorganising canonicalBlocks)
    (p := scriptedWrapper 0 1 (by decide) none) rfl (.run .empty _ _ rfl (List.prefix_refl _))
    (ScriptedCollector.reports_from canonicalBlocks (by decide))
    (ScriptedCollector.smallHeights (c := .from canonicalBlocks 5 5) (by decide) (by decide)) rfl
    (List.prefix_refl _) (w := ⟨5⟩) (by decide +kernel) (by decide +kernel)

end ArtemisLight
