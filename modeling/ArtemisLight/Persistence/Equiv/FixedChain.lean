import ArtemisLight.Persistence.Equiv.Query
import ArtemisLight.Persistence.Writer.Equiv.Encoded

/-!
# Subscriptions to a fixed chain

Against a source that never reorganises, every group is written only when the writers hold the whole
chain up to it (`Complete`), and so the archive is at every moment the chain up to the stored
position.
-/

namespace ArtemisLight

variable {E : Type} {chain : Nat → List E} {lo : Nat}

/-! ### The ledger of a fixed chain -/

/-- While a live stream reports the block `key` of the chain, the ledger is the chain below
`key`. -/
theorem run_chain {tip m n key : Nat} {e : E} {done : List (BlockPosition × E)} (hm : m ≤ tip + 1)
    (hp : done ++ [(⟨key⟩, e)] <+: chainEvents chain m n) :
    ∀ k, lo ≤ k → k < key →
      ((Ledger.snapshot (chainEvents chain lo tip)).run (asLive (done ++ [(⟨key⟩, e)]))).events k
        = chain k := by
  intro k hlo hk
  have hsorted := List.Pairwise.sublist hp.sublist chainEvents_pairwise
  obtain ⟨-, hrun⟩ := Ledger.run_ascending (chainEvents chain lo tip) hsorted
  obtain ⟨first, hf⟩ : ∃ first, first ∈ (done ++ [((⟨key⟩ : BlockPosition), e)]).head? := by
    rcases done with _ | ⟨a, done⟩ <;> simp
  obtain ⟨-, -, hev⟩ := hrun first hf (⟨key⟩, e) (by simp)
  obtain ⟨t, ht⟩ := hp
  have hkey : (⟨key⟩, e) ∈ chainEvents chain m n := by rw [← ht]; simp
  have hkn := (mem_chainEvents.mp hkey).2.1
  rw [hev]
  by_cases hkf : k < first.1.block
  · rw [if_pos hkf, eventsAt_chainEvents]
    by_cases hkt : k ≤ tip
    · rw [if_pos ⟨hlo, hkt⟩]
    · -- above the tip and below the first live event: the block is empty
      rw [if_neg (by omega)]
      have hfirst : first ∈ (chainEvents chain m n).head? := by
        rw [← ht, List.head?_append, Option.mem_def.mp hf]
        rfl
      exact (chain_eq_nil_of_head hfirst (by omega) hkf).symm
  · rw [if_neg hkf]
    have hfm : m ≤ first.1.block := by
      have : first ∈ chainEvents chain m n := by
        rw [← ht]
        exact List.mem_append_left _ (List.mem_of_mem_head? hf)
      exact (mem_chainEvents.mp this).1
    have hall : eventsAt (chainEvents chain m n) k = chain k := by
      rw [eventsAt_chainEvents, if_pos ⟨by omega, by simp only at hkn; omega⟩]
    -- what comes after the event is above it
    have hpw : (chainEvents chain m n).Pairwise _ := chainEvents_pairwise
    rw [← ht, List.pairwise_append] at hpw
    have hrest : eventsAt t k = [] := eventsAt_eq_nil fun y hy => by
      have := hpw.2.2 (⟨key⟩, e) (by simp) y hy
      simp only at this
      omega
    rw [← hall, ← ht, eventsAt_append _ t, hrest, List.append_nil]

/-- A group is written when what is held up to it is the chain. -/
def Complete (chain : Nat → List E) (lo : Nat) (past : List (Effect BlockPosition E)) :
    Effect BlockPosition E → Prop
  | .wrote _ position _ =>
    position.block < u64Max ∧ ∀ k ≤ position.block, lo ≤ k → heldEvents past k = chain k
  | _ => True

section Writers

variable {σ ρ : Type} [Store σ BlockPosition] [RecordOps ρ E] {seed : Option BlockPosition}
  {cut : Option Nat} {tip depth : Nat}

/-- Every group of a subscription to a fixed chain is written complete: the backfill has reached
`hi`, and the live stream follows it if `hi` is the tip. -/
theorem complete_persistAndEmit (store : σ) (record : ρ) {hi m n : Nat}
    {live : List (BlockPosition × E)}
    (hbury : ∀ k, (∀ c ∈ cut, c < k) → k ≤ tip → tip < saturatingAdd u64Max k depth)
    (hdepth : 0 < depth) (hhi : hi ≤ tip) (hseed : ∀ p ∈ seed, p.block < lo)
    (hmax : ∀ k, chain k ≠ [] → k + depth ≤ i64Max) (htip : tip < u64Max)
    (hlive : live ≠ [] → hi = tip ∧ m ≤ tip + 1) (hp : live <+: chainEvents chain m n) :
    Always (Complete chain lo)
      (persistAndEmit (chainEvents chain lo hi) (asLive live) store record depth cut
        seed).io.effects := by
  have hsorted := List.Pairwise.sublist hp.sublist chainEvents_pairwise
  refine (persistAndEmit_tracks (chainEvents chain lo hi) (asLive live) store record hbury
    (fun x hx => Nat.le_trans (mem_chainEvents.mp hx).2.1 hhi)
    (fun x hx p hpm => Nat.lt_of_lt_of_le (hseed p hpm) (mem_chainEvents.mp hx).1)
    (Ledger.run_ascending _ hsorted).1 (fun past x hx => ?_)
    (fun done rest past p rows hsplit hc hnext hheld hne => ?_)
    fun done key e rest past p rows hsplit hheld hle => ?_).2
  · cases x <;> trivial
  · obtain ⟨c, hc, hpc⟩ := hc
    -- the group's events are among those done, so the group lies within the queried range
    obtain ⟨e, he⟩ := List.exists_mem_of_ne_nil _ hne
    have hmem : (⟨p.block⟩, e) ∈ chainEvents chain lo hi := by
      rw [hsplit]
      exact List.mem_append_left _ (mem_eventsAt.mp he)
    have hphi := (mem_chainEvents.mp hmem).2.1
    simp only at hphi
    refine ⟨by omega, fun k hk hlo => ?_⟩
    have hall : eventsAt (chainEvents chain lo hi) k = chain k := by
      rw [eventsAt_chainEvents, if_pos ⟨hlo, by omega⟩]
    have hrest : eventsAt rest k = [] := by
      have hpw : (chainEvents chain lo hi).Pairwise _ := chainEvents_pairwise
      rw [hsplit, List.pairwise_append] at hpw
      exact eventsAt_eq_nil_of_head hpw.2.1 fun x hx => Nat.lt_of_le_of_lt hk (hnext x hx)
    rw [hheld c hc k (by omega), ← hall, hsplit, eventsAt_append, hrest, List.append_nil]
  · obtain ⟨done, rest, hl, rfl, -⟩ := asLive_eq_append hsplit
    obtain ⟨rfl, hm⟩ := hlive (by rw [hl]; simp)
    have hpre : done ++ [(⟨key⟩, e)] <+: chainEvents chain m n := by
      refine List.IsPrefix.trans ⟨rest, ?_⟩ hp
      rw [hl]
      simp
    have hmem : (⟨key⟩, e) ∈ chainEvents chain m n := hpre.subset (by simp)
    have hkey := hmax key (List.ne_nil_of_mem (mem_chainEvents.mp hmem).2.2)
    have hlt : i64Max < u64Max := by decide
    have hpk : p.block + depth ≤ key := by
      unfold saturatingAdd at hle
      omega
    refine ⟨by omega, fun k hk hlo => ?_⟩
    rw [hheld, ← run_chain hm hpre k hlo (by omega)]
    simp [asLive]

end Writers

/-! ### The archive of a fixed chain -/

/-- A stored row as a reader sees it: its sort key and its payload. -/
def keyed (r : Nat × Row) : Nat × Option SqlValue := (r.1, r.2.payload?)

/-- A chain event as a reader of the archive sees it. -/
def stored (ρ : Type) [RecordOps ρ E] (x : BlockPosition × E) : Nat × Option SqlValue :=
  (x.1.block, some (.text (RecordOps.payload ρ x.2)))

/-- `b` is `a` with rows above its position appended, among them, from `lo` on, exactly the chain's
events up to `w`. -/
def ExtendsTo (ρ : Type) [RecordOps ρ E] (chain : Nat → List E) (lo : Nat)
    (a : Archive BlockPosition)
    (w : BlockPosition) (b : Archive BlockPosition) : Prop :=
  w.block < u64Max ∧ (∀ p ∈ a.position, p.block < w.block) ∧ ∃ new, b = ⟨a.rows ++ new, some w⟩ ∧
    (∀ p ∈ a.position, ∀ r ∈ new, p.block < r.1) ∧
    (new.filter fun r => decide (lo ≤ r.1)).map keyed
      = (chainEvents chain lo w.block).map (stored ρ)

section Archive

variable {σ ρ : Type} [RecordOps ρ E] {a : Archive BlockPosition}

theorem keyed_group {position : BlockPosition} {rows : List Row} {es : List E}
    (h : rows.map Row.payload? = es.map fun e => some (.text (RecordOps.payload ρ e))) :
    (rows.map (position.block, ·)).map keyed = (es.map fun e => (position, e)).map (stored ρ) := by
  rw [List.map_map, List.map_map]
  have h₁ :
    (keyed ∘ fun r : Row => (position.block, r)) = (fun v => (position.block, v)) ∘ Row.payload? :=
    rfl
  rw [h₁, ← List.map_map, h, List.map_map]
  rfl

section Group

variable {past : List (Effect BlockPosition E)} {wr : Writer} {p : BlockPosition} {rows : List Row}

/-- Below a group that is written, every block with events has been written. -/
theorem written_below (hs : WriteSafe a.position past wr p rows)
    (hheld : ∀ k ≤ p.block, lo ≤ k → heldEvents past k = chain k) {k : Nat} (hk : k < p.block)
    (hlo : lo ≤ k) (hne : chain k ≠ []) : (⟨k⟩, heldRows past k) ∈ writes past := by
  refine hs.gap_free k hk fun hnil => hne ?_
  rw [← hheld k (by omega) hlo, heldEvents, hnil]
  rfl

/-- What a group that is written adds to the archive from `lo` on is the chain's block. -/
theorem keyed_written {io : Io σ ρ BlockPosition E} (henc : Encoded io)
    (hpast : past <+: io.effects) (hs : WriteSafe a.position past wr p rows)
    (hheld : ∀ k ≤ p.block, lo ≤ k → heldEvents past k = chain k) :
    ((rows.map (p.block, ·)).filter fun r => decide (lo ≤ r.1)).map keyed
      = (if lo ≤ p.block then (chain p.block).map fun e => (⟨p.block⟩, e) else []).map
          (stored ρ) := by
  have hgroup : (heldRows past p.block).map Row.payload?
      = (heldEvents past p.block).map fun e => some (.text (RecordOps.payload ρ e)) :=
    henc.payloads hpast p.block
  rw [← hs.rows_eq] at hgroup
  by_cases hlo : lo ≤ p.block
  · rw [if_pos hlo, ← hheld p.block (Nat.le_refl _) hlo, ← keyed_group hgroup,
      List.filter_eq_self.mpr]
    intro r hr
    obtain ⟨row, -, rfl⟩ := List.mem_map.mp hr
    simpa using hlo
  · rw [if_neg hlo, List.filter_eq_nil_iff.mpr]
    · rfl
    · intro r hr
      obtain ⟨row, -, rfl⟩ := List.mem_map.mp hr
      simpa using hlo

/-- Every row of a group is above the old position. -/
theorem lt_of_mem_group (hs : WriteSafe a.position past wr p rows) {q : BlockPosition}
    (hq : q ∈ a.position) {r : Nat × Row} (hr : r ∈ rows.map (p.block, ·)) : q.block < r.1 := by
  obtain ⟨row, -, rfl⟩ := List.mem_map.mp hr
  exact hs.above_seed q hq

/-- The first group that is written, below which the chain is empty. -/
theorem ExtendsTo.first (hs : WriteSafe a.position past wr p rows) (hmax : p.block < u64Max)
    (hgroup : ((rows.map (p.block, ·)).filter fun r => decide (lo ≤ r.1)).map keyed
      = (if lo ≤ p.block then (chain p.block).map fun e => (⟨p.block⟩, e) else []).map (stored ρ))
    (hempty : ∀ k, k < p.block → lo ≤ k → chain k = []) :
    ExtendsTo ρ chain lo a p (a.commit p rows) := by
  have hadvance : Position.advance a.position p = p := by
    rcases hpos : a.position with _ | q
    · rfl
    · have := hs.above_seed q hpos
      rw [BlockPosition.advance_some, Nat.max_eq_right (by omega)]
  refine ⟨hmax, hs.above_seed, rows.map (p.block, ·), ?_, fun q hq r => lt_of_mem_group hs hq, ?_⟩
  · rw [Archive.commit, hadvance]
    rfl
  · rw [hgroup, chainEvents_last hempty]

/-- A further group, above the last one written and an empty part of the chain. -/
theorem ExtendsTo.next {w : BlockPosition} {b : Archive BlockPosition}
    (h : ExtendsTo ρ chain lo a w b) (hs : WriteSafe a.position past wr p rows)
    (hmax : p.block < u64Max)
    (hgroup : ((rows.map (p.block, ·)).filter fun r => decide (lo ≤ r.1)).map keyed
      = (if lo ≤ p.block then (chain p.block).map fun e => (⟨p.block⟩, e) else []).map (stored ρ))
    (hlt : w.block < p.block) (hempty : ∀ k, w.block < k → k < p.block → lo ≤ k → chain k = []) :
    ExtendsTo ρ chain lo a p (b.commit p rows) := by
  obtain ⟨-, -, new, rfl, hnew, hrows⟩ := h
  refine ⟨hmax, hs.above_seed, new ++ rows.map (p.block, ·), ?_, fun q hq r hr => ?_, ?_⟩
  · rw [Archive.commit, BlockPosition.advance_some, Nat.max_eq_right (by omega), List.append_assoc]
    rfl
  · exact (List.mem_append.mp hr).elim (hnew q hq r) (lt_of_mem_group hs hq)
  · rw [List.filter_append, List.map_append, hrows, hgroup, chainEvents_gap hlt hempty,
      List.map_append]

end Group

/-- At every moment of a subscription to a fixed chain the archive is the chain up to its
position. -/
theorem extends_after {io : Io σ ρ BlockPosition E} (henc : Encoded io) :
    ∀ effects : List (Effect BlockPosition E), effects <+: io.effects →
      Always (Safe a.position) effects → Always (Complete chain lo) effects →
      writes effects = [] ∧ a.after effects = a ∨
        ∃ w, (∃ g ∈ writes effects, g.1 = w) ∧ (∀ g ∈ writes effects, g.1.block ≤ w.block) ∧
          ExtendsTo ρ chain lo a w (a.after effects) := by
  intro effects
  -- only the last effect can be a write, and the archive before it is the induction's
  induction effects using List.reverseRecOn with
  | nil => exact fun _ _ _ => Or.inl ⟨rfl, rfl⟩
  | append_singleton past x ih =>
    intro hpre hsafe hcomp
    have hpast : past <+: io.effects := (List.prefix_append past [x]).trans hpre
    have ih := ih hpast hsafe.of_append hcomp.of_append
    rw [Archive.after_append, writes_append]
    rcases hx : x.wrote? with _ | ⟨p, rows⟩
    · have hw : writes [x] = [] := by simp [writes, hx]
      have ha : ∀ b : Archive BlockPosition, b.after [x] = b := by simp [Archive.after, hw]
      rw [ha, hw, List.append_nil]
      exact ih
    · obtain ⟨wr, rfl⟩ : ∃ wr, x = .wrote wr p rows := by
        cases x <;> simp only [Effect.wrote?, reduceCtorEq, Option.some.injEq, Prod.mk.injEq] at hx
        exact ⟨_, by rw [hx.1, hx.2]⟩
      have hs : WriteSafe a.position past wr p rows := hsafe.last
      have hc : p.block < u64Max ∧ ∀ k ≤ p.block, lo ≤ k → heldEvents past k = chain k := hcomp.last
      have hgroup := keyed_written henc hpast hs hc.2
      have hafter : ∀ b : Archive BlockPosition,
          b.after [(.wrote wr p rows : Effect BlockPosition E)] = b.commit p rows := fun _ => rfl
      have hwr : writes [(.wrote wr p rows : Effect BlockPosition E)] = [(p, rows)] := rfl
      rw [hafter, hwr]
      refine Or.inr ⟨p, ⟨(p, rows), by simp, rfl⟩, ?_⟩
      rcases ih with ⟨hnil, hb⟩ | ⟨w, ⟨g, hg, rfl⟩, hle, hext⟩
      · -- nothing has been written yet, so the blocks below are empty
        rw [hnil, hb]
        refine ⟨by simp, .first hs hc.1 hgroup fun k hk hlo => ?_⟩
        by_contra hne
        have hmem := written_below hs hc.2 hk hlo hne
        rw [hnil] at hmem
        exact absurd hmem List.not_mem_nil
      · have hlt : g.1.block < p.block := hs.increasing g hg
        refine ⟨fun g' hg' => ?_, hext.next hs hc.1 hgroup hlt fun k hwk hk hlo => ?_⟩
        · rcases List.mem_append.mp hg' with hg' | hg'
          · have := hle g' hg'
            omega
          · rw [List.mem_singleton.mp hg']
        · -- a block with events between the last written key and this one would have been written
          by_contra hne
          have := hle _ (written_below hs hc.2 hk hlo hne)
          simp only at this
          omega

end Archive

end ArtemisLight
