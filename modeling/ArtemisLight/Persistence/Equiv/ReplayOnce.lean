import ArtemisLight.Persistence.Equiv.DeepReorg
import ArtemisLight.Persistence.Equiv.GapFree
import ArtemisLight.Persistence.Equiv.Snapshot
import ArtemisLight.Persistence.Writer.Equiv.Delivery

/-!
# Replay once

The engine subscribes to one wrapper again and again.  A subscribe may fail, its stream may be
dropped without being polled, or be polled to some point after its replay segment; the flag flips
with the first poll.  A `Lifetime` is what such a sequence leaves behind.
-/

namespace ArtemisLight

variable {τ σ ρ E : Type}

/-! ### Rows and the events they belong to -/

/-- The event was encoded into the row, or is decoded from it. -/
def Carries [RecordOps ρ E] (record : ρ) (row : Row) (event : E) : Prop :=
  row.payload? = some (.text (RecordOps.payload ρ event)) ∨
    ∃ text, row.payload? = some (.text text) ∧ RecordOps.decode record text = .ok event

/-- Different rows belong to different events of the list. -/
def Vouched [RecordOps ρ E] (record : ρ) (rows : List (Nat × Row)) (events : List E) : Prop :=
  ∃ D : List (Delivery E), (∀ x ∈ D, Carries record x.row x.event) ∧
    (D.map Delivery.event).Subperm events ∧ rows.Subperm (D.map fun x => (x.key, x.row))

namespace Vouched

variable [RecordOps ρ E] {record : ρ} {rows rows' : List (Nat × Row)} {events events' : List E}

theorem nil : Vouched record [] events :=
  ⟨[], by simp, List.nil_subperm, List.Subperm.refl _⟩

theorem append (h : Vouched record rows events) (h' : Vouched record rows' events') :
    Vouched record (rows ++ rows') (events ++ events') := by
  obtain ⟨D, hcarries, hevents, hrows⟩ := h
  obtain ⟨D', hcarries', hevents', hrows'⟩ := h'
  refine ⟨D ++ D', fun x hx => ?_, ?_, ?_⟩
  · exact (List.mem_append.mp hx).elim (hcarries x) (hcarries' x)
  · rw [List.map_append]
    exact hevents.append hevents'
  · rw [List.map_append]
    exact hrows.append hrows'

theorem of_subperm (h : Vouched record rows events) (hrows : rows'.Subperm rows) :
    Vouched record rows' events := by
  obtain ⟨D, hcarries, hevents, hD⟩ := h
  exact ⟨D, hcarries, hevents, hrows.trans hD⟩

theorem append_events (h : Vouched record rows events) (before : List E) :
    Vouched record rows (before ++ events) :=
  nil.append h

end Vouched

/-- The rows of the groups written, each under its sort key, in order. -/
def rowsWritten (effects : List (Effect BlockPosition E)) : List (Nat × Row) :=
  (writes effects).flatMap fun g => g.2.map (g.1.block, ·)

theorem Archive.after_rows (a : Archive BlockPosition) (effects : List (Effect BlockPosition E)) :
    (a.after effects).rows = a.rows ++ rowsWritten effects := by
  unfold Archive.after rowsWritten
  generalize writes effects = groups
  induction groups generalizing a with
  | nil => exact (List.append_nil _).symm
  | cons g groups ih =>
    rw [List.foldl_cons, ih, List.flatMap_cons, ← List.append_assoc]
    rfl

/-- Groups of different keys that are covered by deliveries one by one are covered together. -/
theorem subperm_keyed {groups : List (BlockPosition × List Row)} {D : List (Delivery E)}
    (hkeys : groups.Pairwise fun g g' => g.1.block < g'.1.block)
    (hgroups : ∀ g ∈ groups, g.2.Subperm (rowsFor D g.1.block)) :
    (groups.flatMap fun g => g.2.map (g.1.block, ·)).Subperm (D.map fun x => (x.key, x.row)) := by
  induction groups generalizing D with
  | nil => exact List.nil_subperm
  | cons g groups ih =>
    obtain ⟨hlt, hkeys⟩ := List.pairwise_cons.mp hkeys
    -- the deliveries at this key serve the group, the others the rest
    have hfirst : (g.2.map (g.1.block, ·)).Subperm
        ((D.filter fun x => decide (x.key = g.1.block)).map fun x => (x.key, x.row)) := by
      have hmap := (hgroups g List.mem_cons_self).map (Prod.mk_right_injective g.1.block)
      rw [rowsFor, List.map_map] at hmap
      convert hmap using 1
      apply List.map_congr_left
      intro x hx
      rw [Function.comp_apply, ← of_decide_eq_true (List.mem_filter.mp hx).2]
    have hrest := ih (D := D.filter fun x => !decide (x.key = g.1.block)) hkeys fun g' hg' => by
      have hne := Nat.ne_of_gt (hlt g' hg')
      have heq : rowsFor (D.filter fun x => !decide (x.key = g.1.block)) g'.1.block
          = rowsFor D g'.1.block := by
        unfold rowsFor
        rw [List.filter_filter]
        congr 1
        apply List.filter_congr
        intro x _
        by_cases hx : x.key = g'.1.block
        · simp [hx, hne]
        · simp [hx]
      rw [heq]
      exact hgroups g' (List.mem_cons_of_mem g hg')
    rw [List.flatMap_cons]
    refine (hfirst.append hrest).trans ?_
    rw [← List.map_append]
    exact ((List.filter_append_perm _ D).map _).subperm

/-! ### Replayed rows -/

/-- What a list maps to, one by one. -/
theorem forall₂_of_mapM {α β : Type} {f : α → Except Error β} {l : List α} {l' : List β}
    (h : l.mapM f = .ok l') : List.Forall₂ (fun x y => f x = .ok y) l l' := by
  induction l generalizing l' with
  | nil =>
    obtain rfl : [] = l' := Except.ok.inj h
    exact .nil
  | cons x l ih =>
    rw [List.mapM_cons] at h
    rcases hx : f x with e | y
    · rw [hx] at h
      exact nomatch h
    · rcases hl : l.mapM f with e | ys
      · rw [hx, hl] at h
        exact nomatch h
      · rw [hx, hl] at h
        obtain rfl : y :: ys = l' := Except.ok.inj h
        exact .cons hx (ih hl)

section Replay

variable [Archival σ BlockPosition] [RecordOps ρ E] {store : σ} {record : ρ}

/-- A replay that succeeds decodes every row up to its bound. -/
theorem replayStored_accounted {a : Archive BlockPosition}
    (ha : Archival.archive store (RecordOps.table E record) = a)
    (hsorted : a.rows.Pairwise fun r r' => r.1 ≤ r'.1) {q : BlockPosition} {events : List E}
    (h : replayStored store record (some q) = .ok events) :
    Vouched record (a.rows.filter fun r => decide (r.1 ≤ q.block)) events := by
  unfold replayStored at h
  dsimp only at h
  rcases hrows : Store.replay store ⟨RecordOps.table E record, [⟨payloadColumn, .text⟩]⟩ q
    with e | rows
  · rw [hrows] at h
    exact nomatch h
  rw [hrows] at h
  have hcells := Archival.replay_ok (by rw [ha]; exact hsorted) hrows
  rw [ha, Archive.upTo, List.map_map] at hcells
  have hdecoded := forall₂_of_mapM h
  simp only [BlockPosition.sortKey_eq] at hcells
  generalize (a.rows.filter fun r => decide (r.1 ≤ q.block)) = stored at hcells ⊢
  -- the rows that were read vouch for the events, one by one
  clear h hrows
  induction hdecoded generalizing stored with
  | nil =>
    obtain rfl : stored = [] := List.map_eq_nil_iff.mp hcells.symm
    exact .nil
  | @cons row e rows events hrow hrest ih =>
    obtain ⟨r, stored, rfl, hr, hcells⟩ := List.map_eq_cons_iff.mp hcells.symm
    have hone : Vouched record [r] [e] := by
      refine ⟨[⟨r.1, e, r.2⟩], fun x hx => ?_, List.Subperm.refl _, List.Subperm.refl _⟩
      rw [List.mem_singleton.mp hx]
      unfold decodeRow at hrow
      rw [← hr, Function.comp_apply] at hrow
      rcases hp : r.2.payload? with _ | cell
      · rw [hp] at hrow
        exact nomatch hrow
      · rw [hp] at hrow
        cases cell with
        | text text => exact .inr ⟨text, hp, hrow⟩
        | _ => exact nomatch hrow
    exact hone.append (ih stored hcells.symm)

end Replay

/-! ### Sources that keep to the range they are asked for -/

/-- A range query that answers yields positions of its range, which is inclusive: this is the
contract of `query_range`, and no caller checks it.  An event from below the range would be stored
under a key at or below the stored position, or above the tip that the wrapper has settled for. -/
def Ranged (τ E : Type) [PersistableCollector τ BlockPosition E] : Prop :=
  ∀ (c : τ) (a b : BlockPosition) (stream : List (BlockPosition × E)) c',
    PersistableCollector.queryRange c a b = (.ok stream, c') →
      ∀ x ∈ stream, a.block ≤ x.1.block ∧ x.1.block ≤ b.block

section Ranged

variable [PersistableCollector τ BlockPosition E]

/-- Bisecting keeps to the window. -/
theorem Ranged.split (hR : Ranged τ E) (fuel : Nat) (c : τ) (lo hi : Nat)
    {stream : List (BlockPosition × E)} {c' : τ}
    (h : queryRangeSplitAux fuel c lo hi = (.ok stream, c')) :
    ∀ x ∈ stream, lo ≤ x.1.block ∧ x.1.block ≤ hi := by
  induction fuel generalizing c lo hi stream c' with
  | zero =>
    unfold queryRangeSplitAux at h
    rcases hq : PersistableCollector.queryRange (E := E) c (Position.fromSortKey lo : BlockPosition)
      (Position.fromSortKey hi) with ⟨e | window, c₁⟩ <;> rw [hq] at h <;> dsimp only at h
    · split at h <;> exact absurd h (by simp)
    · obtain rfl := Except.ok.inj (Prod.mk.inj h).1
      exact hR c ⟨lo⟩ ⟨hi⟩ _ c₁ hq
  | succ fuel ih =>
    unfold queryRangeSplitAux at h
    rcases hq : PersistableCollector.queryRange (E := E) c (Position.fromSortKey lo : BlockPosition)
      (Position.fromSortKey hi) with ⟨e | window, c₁⟩ <;> rw [hq] at h <;> dsimp only at h
    · split at h
      · rename_i hsplit
        have hlt := hsplit.1
        rcases hl : queryRangeSplitAux (P := BlockPosition) (E := E) fuel c₁ lo (lo + (hi - lo) / 2)
          with ⟨e' | left, c₂⟩ <;> rw [hl] at h <;> dsimp only at h
        · exact absurd h (by simp)
        · rcases hr : queryRangeSplitAux (P := BlockPosition) (E := E) fuel c₂
            (lo + (hi - lo) / 2 + 1) hi with ⟨e'' | right, c₃⟩ <;> rw [hr] at h <;> dsimp only at h
          · exact absurd h (by simp)
          · -- a rejected window that both halves answer
            obtain rfl := Except.ok.inj (Prod.mk.inj h).1
            intro x hx
            rcases List.mem_append.mp hx with hx | hx
            · have := ih c₁ _ _ hl x hx
              omega
            · have := ih c₂ _ _ hr x hx
              omega
      · exact absurd h (by simp)
    · obtain rfl := Except.ok.inj (Prod.mk.inj h).1
      exact hR c ⟨lo⟩ ⟨hi⟩ _ c₁ hq

/-- The slice loop keeps to the rest of the gap. -/
theorem Ranged.loop (hR : Ranged τ E) {hi chunk : Nat} (hmax : hi < u64Max) (fuel : Nat) (c : τ)
    (nextFrom : Nat) :
    ∀ x ∈ (chunkLoop (P := BlockPosition) (E := E) fuel c nextFrom hi chunk).1.1,
      nextFrom ≤ x.1.block ∧ x.1.block ≤ hi := by
  induction fuel generalizing c nextFrom with
  | zero => exact fun x hx => absurd hx List.not_mem_nil
  | succ fuel ih =>
    unfold chunkLoop
    split
    · rename_i hle
      obtain ⟨hge, hend⟩ := windowEnd_bounds chunk hle hmax
      rcases hq : (queryRangeSplit c nextFrom (windowEnd nextFrom hi chunk) :
        Except Error (List (BlockPosition × E)) × τ) with ⟨e | window, c'⟩
      · simp only [hq]
        exact fun x hx => absurd hx List.not_mem_nil
      · simp only [hq]
        intro x hx
        rcases List.mem_append.mp hx with hx | hx
        · have := hR.split _ c _ _ hq x hx
          omega
        · rw [saturatingAdd_windowEnd hmax] at hx
          have := ih c' _ x hx
          omega
    · exact fun x hx => absurd hx List.not_mem_nil

theorem Ranged.backfillSegment (hR : Ranged τ E) {c c' : τ} {lo hi chunk : Nat} (hmax : hi < u64Max)
    {backfill : List (BlockPosition × E)} {outcome : ChunkEnd}
    (h : backfillSegment c lo hi chunk = (.ok (backfill, outcome), c')) :
    ∀ x ∈ backfill, lo ≤ x.1.block ∧ x.1.block ≤ hi := by
  unfold ArtemisLight.backfillSegment at h
  split at h
  · obtain ⟨hnil, -⟩ := Prod.mk.inj (Except.ok.inj (Prod.mk.inj h).1)
    rw [← hnil]
    exact fun x hx => absurd hx List.not_mem_nil
  · rename_i hle
    obtain ⟨hge, hend⟩ := windowEnd_bounds chunk (Nat.le_of_not_lt hle) hmax
    unfold chunkedQuery at h
    dsimp only at h
    rcases hq : (queryRangeSplit c lo (windowEnd lo hi chunk) :
      Except Error (List (BlockPosition × E)) × τ) with ⟨e | first, c₁⟩
    · rw [hq] at h
      exact nomatch h
    · rw [hq] at h
      obtain ⟨hbackfill, -⟩ := Prod.mk.inj (Except.ok.inj (Prod.mk.inj h).1)
      rw [← hbackfill, saturatingAdd_windowEnd hmax]
      intro x hx
      rcases List.mem_append.mp hx with hx | hx
      · have := hR.split _ c _ _ hq x hx
        omega
      · have := hR.loop hmax _ c₁ _ x hx
        omega

end Ranged

/-! ### One subscription -/

/-- The sort keys that a subscription meets, the confirmation depth added, stay below
`u64::MAX`. -/
structure SmallKeys [PersistableCollector τ BlockPosition E] (p : Persisted ρ) (c : τ) : Prop where
  tip : ∀ (live : List (Indexed BlockPosition E)) c₁ (tip : BlockPosition) c₂,
    p.liveSource c = (.ok live, c₁) → PersistableCollector.tip E c₁ = (.ok tip, c₂) →
      tip.block + p.confirmationDepth < u64Max
  live : ∀ (live : List (Indexed BlockPosition E)) c₁, p.liveSource c = (.ok live, c₁) →
    ∀ position event, .event position event ∈ live →
      position.block + p.confirmationDepth < u64Max

section Subscription

/-- What the backfill and live segments do is part of one run of the writers, over the live stream
or over none of it. -/
theorem Persisted.synced_isPrefix [Store σ BlockPosition] [RecordOps ρ E] (p : Persisted ρ)
    (store : σ) (record : ρ) (cut : Option Nat) (last : Option BlockPosition)
    (backfill : List (BlockPosition × E)) (outcome : ChunkEnd)
    (live : List (Indexed BlockPosition E)) :
    ∃ live', (∀ item ∈ live', item ∈ live) ∧
      p.synced store record cut last backfill outcome live <+:
        (persistAndEmit backfill live' store record p.confirmationDepth cut last).io.effects := by
  cases outcome with
  | exhausted => exact ⟨live, fun _ h => h, List.prefix_refl _⟩
  | poisoned => exact ⟨[], fun _ h => absurd h List.not_mem_nil, List.prefix_refl _⟩
  | unfinished =>
    refine ⟨[], fun _ h => absurd h List.not_mem_nil, ?_⟩
    unfold persistAndEmit
    rw [List.foldl_nil]
    obtain ⟨xs, -, -, hsettle⟩ := settle_effects (backfill.foldl (Pipeline.backfillStep cut)
      (Pipeline.start store record p.confirmationDepth cut last))
    obtain ⟨store', ys, hfinish, -⟩ := BlockWriter.finish_quiet
      (backfill.foldl (Pipeline.backfillStep cut)
        (Pipeline.start (E := E) store record p.confirmationDepth cut last)).settled
      (backfill.foldl (Pipeline.backfillStep cut)
        (Pipeline.start store record p.confirmationDepth cut last)).io
    rw [hsettle, hfinish, List.append_assoc]
    exact List.prefix_append _ _

variable [PersistableCollector τ BlockPosition E] [Archival σ BlockPosition] [RecordOps ρ E]

/-- At every moment of a subscription the writes are safe, and what has been written belongs to
different events yielded before. -/
theorem subscribe_delivers (hR : Ranged τ E) {p : Persisted ρ} {record : ρ}
    (hrec : p.record = .ok record) {c c' : τ} (hsmall : SmallKeys (E := E) p c) {store : σ}
    {sub : Subscription BlockPosition E} (hsub : p.subscribe c store = (.ok sub, c'))
    {effects : List (Effect BlockPosition E)} (hpre : effects <+: sub.synced) :
    Always (Safe (Archival.archive (P := BlockPosition) store (RecordOps.table E record)).position)
        effects ∧
      Vouched record (rowsWritten effects) (yields effects) := by
  obtain ⟨record', live, c₁, tip, c₂, last, backfill, outcome, hrec', hlive, htip, hlast, -, hback,
    hsynced⟩ := subscribe_ok hsub
  obtain rfl := Except.ok.inj (hrec.symm.trans hrec')
  have htipmax := hsmall.tip live c₁ tip c₂ hlive htip
  have heff : p.effectiveTip tip.block < u64Max := by
    have hle : p.effectiveTip tip.block ≤ tip.block := p.effectiveTip_le
    omega
  obtain ⟨live', hsub', hprefix⟩ := p.synced_isPrefix store record (p.finalCut tip.block) last
    backfill outcome live
  have hrange := hR.backfillSegment heff hback
  have hseed : ∀ x ∈ backfill, ∀ q ∈ last, q.block < x.1.block := by
    intro x hx q hq
    obtain ⟨hle, hxtip⟩ := hrange x hx
    unfold Persisted.backfillFrom at hle
    rw [Option.mem_def.mp hq, Option.elim_some] at hle
    -- a stored position at `u64::MAX` resumes from itself, but no key reaches it
    have hkey : Position.resumeKey q = min (q.block + 1) u64Max := rfl
    have htip : p.effectiveTip (Position.sortKey tip) < u64Max := heff
    omega
  have hwhole : effects <+: (persistAndEmit backfill live' store record p.confirmationDepth
      (p.finalCut tip.block) last).io.effects := by
    rw [hsynced] at hpre
    exact hpre.trans hprefix
  have hsafe := safe_persistAndEmit backfill live' store record (p.bury heff)
    (fun x hx => (hrange x hx).2) hseed
  have hdelivery := delivery_persistAndEmit backfill live' store record (p.bury heff) p.depth_pos
    (fun x hx => (hrange x hx).2) hseed fun q e hq => by
      have := hsmall.live live c₁ hlive q e (hsub' _ hq)
      omega
  have hencoded := encoded_persistAndEmit backfill live' store record p.confirmationDepth
    (p.finalCut tip.block) last
  have hsafe' := hsafe.of_isPrefix hwhole
  rw [Archival.storedPosition_ok hlast]
  refine ⟨hsafe', ?_⟩
  have hD : ∃ D, Delivered D effects := by
    rcases List.eq_nil_or_concat effects with rfl | ⟨past, x, rfl⟩
    · exact ⟨[], Delivered.nil⟩
    · rw [List.concat_eq_append] at hwhole ⊢
      exact (hdelivery.1.of_isPrefix hwhole).last
  obtain ⟨D, hD⟩ := hD
  refine ⟨D, fun x hx => ?_, hD.yielded.subperm, subperm_keyed (Safe.writes_pairwise hsafe')
    hD.written⟩
  obtain ⟨w, hw⟩ := hD.accepted x hx
  exact .inl (RecordOps.encode_payload (hencoded w _ _ _ (hwhole.subset hw)))

end Subscription

/-! ### Archives that runs leave behind -/

/-- The rows come in the order of their sort keys, none above the stored position.  No run ends with
any other archive: nothing stored is orderly, and every subscription keeps it so (`Orderly.after`).
A backend sorts by key before it replays, so the order is that of the replay too. -/
structure Archive.Orderly (a : Archive BlockPosition) : Prop where
  sorted : a.rows.Pairwise fun r r' => r.1 ≤ r'.1
  capped : a.Capped

/-- Safe writes go to the end of the archive. -/
theorem Archive.Orderly.after {a : Archive BlockPosition} (h : a.Orderly)
    {effects : List (Effect BlockPosition E)} (hsafe : Always (Safe a.position) effects) :
    (a.after effects).Orderly := by
  refine ⟨?_, h.capped.after effects⟩
  have hkey : ∀ r ∈ rowsWritten effects, ∃ g ∈ writes effects, r.1 = g.1.block := by
    intro r hr
    obtain ⟨g, hg, hrow⟩ := List.mem_flatMap.mp hr
    obtain ⟨row, -, rfl⟩ := List.mem_map.mp hrow
    exact ⟨g, hg, rfl⟩
  rw [Archive.after_rows, List.pairwise_append]
  refine ⟨h.sorted, ?_, fun r hr r' hr' => ?_⟩
  · unfold rowsWritten
    rw [List.pairwise_flatMap]
    constructor
    · intro g _
      rw [List.pairwise_map]
      exact List.pairwise_of_forall fun _ _ => Nat.le_refl _
    · apply (Safe.writes_pairwise hsafe).imp
      intro g g' hlt r hr r' hr'
      obtain ⟨row, -, rfl⟩ := List.mem_map.mp hr
      obtain ⟨row', -, rfl⟩ := List.mem_map.mp hr'
      exact Nat.le_of_lt hlt
  · obtain ⟨w, hw, hle⟩ := h.capped r hr
    obtain ⟨g, hg, hkeyed⟩ := hkey r' hr'
    have := Safe.above_seed hsafe hw hg
    omega

/-- The stored rows that a replay reads: all of them, or those up to the bound. -/
def Persisted.within (p : Persisted ρ) (a : Archive BlockPosition) : List (Nat × Row) :=
  a.rows.filter fun r => p.toBlock.all fun cap => decide (r.1 ≤ cap)

/-! ### The life of a wrapper -/

/-- A wrapper between two subscribes: the replay-once flag, the store, and what its streams have
yielded so far. -/
structure Lifetime (σ E : Type) where
  replayed : Bool
  store : σ
  yielded : List E

section Lifetimes

variable [PersistableCollector τ BlockPosition E] [Archival σ BlockPosition] [RecordOps ρ E]

/-- The wrapper `p` as a subscribe finds it. -/
def Persisted.resumed (p : Persisted ρ) (s : Lifetime σ E) : Persisted ρ :=
  { p with replayed := s.replayed }

/-- One subscribe of the wrapper `p`, to a source in any state, and what becomes of its stream.  The
flag flips with the first poll. -/
inductive Attempt (τ : Type) [PersistableCollector τ BlockPosition E] (p : Persisted ρ) :
    Lifetime σ E → Lifetime σ E → Prop
  | failed {s : Lifetime σ E} {c c' : τ} {e : Error}
      (h : ((p.resumed s).subscribe c s.store : Except Error (Subscription BlockPosition E) × τ)
        = (.error e, c')) : Attempt τ p s s
  /-- The stream is dropped without being polled. -/
  | dropped {s : Lifetime σ E} {c c' : τ} {sub : Subscription BlockPosition E}
      (h : (p.resumed s).subscribe c s.store = (.ok sub, c')) : Attempt τ p s s
  /-- The stream is polled to some point at or after the end of its replay segment. -/
  | polled {s : Lifetime σ E} {c c' : τ} {sub : Subscription BlockPosition E} {record : ρ}
      (hrec : p.record = .ok record) (hsmall : SmallKeys (E := E) p c)
      (h : (p.resumed s).subscribe c s.store = (.ok sub, c'))
      {effects : List (Effect BlockPosition E)} (hpre : effects <+: sub.synced) {store : σ}
      (hstore : Archival.archive (P := BlockPosition) store (RecordOps.table E record)
        = (Archival.archive s.store (RecordOps.table E record)).after effects) :
      Attempt τ p s ⟨true, store, s.yielded ++ yields (sub.replay.map .yielded ++ effects)⟩

/-- After the first poll nothing is replayed. -/
theorem replay_eq_nil {p : Persisted ρ} {s : Lifetime σ E} (hs : s.replayed = true) {c c' : τ}
    {sub : Subscription BlockPosition E}
    (hsub : (p.resumed s).subscribe c s.store = (.ok sub, c')) : sub.replay = [] := by
  obtain ⟨record, live, c₁, tip, c₂, last, backfill, outcome, -, -, -, -, hreplay, -, -⟩ :=
    subscribe_ok hsub
  unfold replaySegment at hreplay
  rw [if_pos (show (p.resumed s).replayed = true from hs)] at hreplay
  exact (Except.ok.inj hreplay).symm

/-- The first stream replays every stored row within the bound. -/
theorem replay_accounted {p : Persisted ρ} {record : ρ} (hrec : p.record = .ok record)
    {s : Lifetime σ E} (hs : s.replayed = false) {a : Archive BlockPosition}
    (ha : Archival.archive s.store (RecordOps.table E record) = a) (hord : a.Orderly) {c c' : τ}
    {sub : Subscription BlockPosition E}
    (hsub : (p.resumed s).subscribe c s.store = (.ok sub, c')) :
    Vouched record (p.within a) sub.replay := by
  obtain ⟨record', live, c₁, tip, c₂, last, backfill, outcome, hrec', -, -, hlast, hreplay, -, -⟩ :=
    subscribe_ok hsub
  obtain rfl := Except.ok.inj (hrec.symm.trans hrec')
  have hposition := Archival.storedPosition_ok hlast
  rw [ha] at hposition
  unfold replaySegment at hreplay
  rw [if_neg (by rw [show (p.resumed s).replayed = false from hs]; decide)] at hreplay
  rcases last with _ | l
  · -- without a stored position there are no rows
    have hnil : a.rows = [] := by
      rw [List.eq_nil_iff_forall_not_mem]
      intro r hr
      obtain ⟨w, hw, -⟩ := hord.capped r hr
      rw [hposition] at hw
      exact nomatch hw
    rw [Persisted.within, hnil]
    exact .nil
  · -- every row is at or below the stored position, so an uncapped replay reads them all
    have hall : (p.within a).Subperm (a.rows.filter fun r => decide (r.1 ≤ l.block)) := by
      have hself : (a.rows.filter fun r => decide (r.1 ≤ l.block)) = a.rows := by
        apply List.filter_eq_self.mpr
        intro r hr
        obtain ⟨w, hw, hle⟩ := hord.capped r hr
        rw [hposition] at hw
        obtain rfl := Option.some.inj hw
        exact decide_eq_true hle
      rw [hself]
      exact (List.filter_sublist).subperm
    unfold Persisted.replayUpTo at hreplay
    rcases hbound : p.toBlock with _ | cap
    · rw [show (p.resumed s).toBlock = none from hbound] at hreplay
      exact (replayStored_accounted ha hord.sorted hreplay).of_subperm hall
    · rw [show (p.resumed s).toBlock = some cap from hbound] at hreplay
      dsimp only at hreplay
      split at hreplay
      · have hcapped := replayStored_accounted ha hord.sorted hreplay
        rw [Persisted.within, hbound]
        exact hcapped
      · exact (replayStored_accounted ha hord.sorted hreplay).of_subperm hall

/-- What a sequence of attempts preserves: once a stream has been polled, the stored rows within the
bound belong to different events that have been yielded. -/
structure Lifetime.Vouches (p : Persisted ρ) (record : ρ) (s : Lifetime σ E) : Prop where
  orderly : (Archival.archive (P := BlockPosition) s.store (RecordOps.table E record)).Orderly
  delivered : s.replayed = true →
    Vouched record (p.within (Archival.archive s.store (RecordOps.table E record))) s.yielded

theorem Lifetime.Vouches.step (hR : Ranged τ E) {p : Persisted ρ} {record : ρ}
    (hrec : p.record = .ok record) {s s' : Lifetime σ E} (h : s.Vouches p record)
    (hstep : Attempt τ p s s') : s'.Vouches p record := by
  cases hstep with
  | failed => exact h
  | dropped => exact h
  | @polled c c' sub record' hrec' hsmall hsub effects hpre store hstore =>
    obtain rfl := Except.ok.inj (hrec.symm.trans hrec')
    have hsmall' : SmallKeys (E := E) (p.resumed s) c := ⟨hsmall.tip, hsmall.live⟩
    obtain ⟨hsafe, hwritten⟩ :=
      subscribe_delivers hR (p := p.resumed s) hrec hsmall' hsub hpre
    refine ⟨?_, fun _ => ?_⟩
    · rw [hstore]
      exact h.orderly.after hsafe
    · rw [hstore, Persisted.within, Archive.after_rows, List.filter_append, yields_append,
        ← List.append_assoc]
      refine Vouched.append ?_ (hwritten.of_subperm (List.filter_sublist).subperm)
      have hyields :
          yields (sub.replay.map (Effect.yielded (P := BlockPosition))) = sub.replay := by
        unfold yields
        rw [List.filterMap_map]
        exact List.filterMap_some
      rw [hyields]
      cases hs : s.replayed with
      | true =>
        rw [replay_eq_nil hs hsub, List.append_nil]
        exact h.delivered hs
      | false => exact (replay_accounted hrec hs rfl h.orderly hsub).append_events _

/-- Nothing is stored before it is delivered, and no reconnect loses anything.  At every point of
every stream what it has written belongs to different events it has yielded; and after any sequence
of attempts, the stored rows within the bound belong to different events that have been yielded and
nothing is replayed again, or, as long as no stream has been polled, to different events of the next
replay. -/
theorem stored_events_delivered (hR : Ranged τ E) {p : Persisted ρ} {record : ρ}
    (hrec : p.record = .ok record) {store : σ}
    (hord : (Archival.archive (P := BlockPosition) store (RecordOps.table E record)).Orderly)
    {s : Lifetime σ E} (hs : Relation.ReflTransGen (Attempt τ p) ⟨false, store, []⟩ s) :
    (∀ (c c' : τ) (sub : Subscription BlockPosition E), SmallKeys (E := E) p c →
      (p.resumed s).subscribe c s.store = (.ok sub, c') → ∀ effects, effects <+: sub.effects →
        Vouched record (rowsWritten effects) (yields effects)) ∧
    (s.replayed = true →
      Vouched record (p.within (Archival.archive s.store (RecordOps.table E record))) s.yielded ∧
      ∀ (c c' : τ) (sub : Subscription BlockPosition E),
        (p.resumed s).subscribe c s.store = (.ok sub, c') → sub.replay = []) ∧
    (s.replayed = false → ∀ (c c' : τ) (sub : Subscription BlockPosition E),
      (p.resumed s).subscribe c s.store = (.ok sub, c') →
        Vouched record (p.within (Archival.archive s.store (RecordOps.table E record)))
          sub.replay) := by
  have hinv : s.Vouches p record := by
    induction hs with
    | refl => exact ⟨hord, fun h => nomatch h⟩
    | tail _ hstep ih => exact ih.step hR hrec hstep
  refine ⟨fun c c' sub hsmall hsub effects hpre => ?_, fun hs' => ⟨hinv.delivered hs', ?_⟩, ?_⟩
  · have hsmall' : SmallKeys (E := E) (p.resumed s) c := ⟨hsmall.tip, hsmall.live⟩
    obtain ⟨t, ht⟩ := hpre
    rcases List.append_eq_append_iff.mp ht with ⟨rest, hrest, -⟩ | ⟨synced, rfl, hsynced⟩
    · -- cut off in the replay segment
      have hw := writes_yielded (P := BlockPosition) sub.replay
      rw [hrest, writes_append, List.append_eq_nil_iff] at hw
      rw [rowsWritten, hw.1]
      exact .nil
    · obtain ⟨-, hwritten⟩ :=
        subscribe_delivers hR (p := p.resumed s) hrec hsmall' hsub ⟨t, hsynced.symm⟩
      rw [rowsWritten, writes_append, writes_yielded, List.nil_append, yields_append]
      exact hwritten.append_events _
  · exact fun c c' sub hsub => replay_eq_nil hs' hsub
  · exact fun hs' c c' sub hsub => replay_accounted hrec hs' rfl hinv.orderly hsub

end Lifetimes

/-! ### A stream that is polled, and one that is bounded -/

theorem ScriptedCollector.ranged (E : Type) : Ranged (ScriptedCollector E) E := by
  intro c a b stream c' h x hx
  obtain rfl := Except.ok.inj (Prod.mk.inj h).1
  obtain ⟨hlo, hhi, -⟩ := mem_chainEvents.mp hx
  exact ⟨hlo, hhi⟩

theorem ScriptedCollector.smallKeys {E : Type} {p : Persisted ρ} {c : ScriptedCollector E}
    (htip : c.tip + p.confirmationDepth < u64Max)
    (hlive : ∀ item ∈ c.live, ∀ position event, item = .event position event →
      position.block + p.confirmationDepth < u64Max) : SmallKeys (E := E) p c where
  tip live c₁ tip c₂ hl ht := by
    have hc : c₁ = c := by
      unfold Persisted.liveSource at hl
      split at hl <;> exact (Prod.mk.inj hl).2.symm
    obtain ⟨ht, -⟩ := Prod.mk.inj ht
    rw [← Except.ok.inj ht, hc]
    exact htip
  live live c₁ hl position event hmem := by
    unfold Persisted.liveSource at hl
    split at hl
    · obtain rfl := Except.ok.inj (Prod.mk.inj hl).1
      exact hlive _ hmem position event rfl
    · obtain rfl := Except.ok.inj (Prod.mk.inj hl).1
      exact nomatch hmem

/-- The life of a new wrapper whose first stream is polled to its end, over a store that holds
`a`. -/
def readLifetime (p : Persisted Record) (c : ScriptedCollector ValueSet)
    (a : Archive BlockPosition) :
    Lifetime (MemoryStore BlockPosition) ValueSet :=
  ⟨true, .holding (a.after (p.stream c (MemoryStore.holding a) : List (Effect _ ValueSet))),
    yields (p.stream c (MemoryStore.holding a) : List (Effect BlockPosition ValueSet))⟩

theorem readLifetime_attempt {p : Persisted Record} {record : Record} (hrec : p.record = .ok record)
    (hfirst : p.replayed = false) {c : ScriptedCollector ValueSet}
    (hsmall : SmallKeys (E := ValueSet) p c) {a : Archive BlockPosition}
    (hok : (p.subscribe c (MemoryStore.holding a) :
      Except Error (Subscription BlockPosition ValueSet) × _).1.isOk) :
    Attempt (ScriptedCollector ValueSet) p ⟨false, .holding a, []⟩ (readLifetime p c a) := by
  obtain ⟨sub, c', hsub, hstream⟩ := stream_of_ok hok
  have hresumed :
      p.resumed (⟨false, .holding a, []⟩ : Lifetime (MemoryStore BlockPosition) ValueSet) = p := by
    unfold Persisted.resumed
    rw [← hfirst]
  have hpolled : Attempt (ScriptedCollector ValueSet) p ⟨false, MemoryStore.holding a, []⟩
      ⟨true, MemoryStore.holding (a.after sub.effects), [] ++ yields sub.effects⟩ := by
    refine .polled hrec hsmall (by rw [hresumed]; exact hsub) (List.prefix_refl _) ?_
    show a.after (_ ++ _) = _
    rw [Archive.after_append, a.after_of_writes (writes_yielded _)]
    rfl
  rw [readLifetime, hstream]
  exact hpolled

/-- A live stream of these blocks stays far below `u64::MAX`. -/
theorem restartedLive_small {m tip depth : Nat} (hdepth : depth ≤ 1) :
    ∀ item ∈ (ScriptedCollector.from restartedBlocks m tip).live, ∀ position event,
      item = .event position event → position.block + depth < u64Max := by
  intro item hitem position event hevent
  obtain ⟨x, hx, rfl⟩ := List.mem_map.mp hitem
  obtain ⟨rfl, rfl⟩ := Indexed.event.inj hevent
  have hle : x.1.block ≤ restartedBlocks.length := (mem_chainEvents.mp hx).2.1
  have hlength : restartedBlocks.length + 1 < u64Max := by decide
  omega

/-- A wrapper bounded at block 2 over an archive that reaches block 5. -/
def snapshotLifetime : Lifetime (MemoryStore BlockPosition) ValueSet :=
  readLifetime (scriptedWrapper 1 1 Nat.one_pos (some 2)) (.from restartedBlocks 3 4)
    restartedArchive

/-- Its first stream has been polled to the end; the row of block 4 has not been yielded, and
nothing will be replayed. -/
theorem row_above_bound_stranded :
    Attempt (ScriptedCollector ValueSet) (scriptedWrapper 1 1 (by decide) (some 2))
      ⟨false, .holding restartedArchive, []⟩ snapshotLifetime ∧
    (∃ r ∈ (snapshotLifetime.store.archives ValueSet.table).rows, r.1 = 4 ∧
      ∀ e ∈ snapshotLifetime.yielded, ¬ Carries (Record.inferred ValueSet.table) r.2 e) ∧
    ∀ (c c' : ScriptedCollector ValueSet) (sub : Subscription BlockPosition ValueSet),
      ((scriptedWrapper 1 1 (by decide) (some 2)).resumed snapshotLifetime).subscribe c
        snapshotLifetime.store = (.ok sub, c') → sub.replay = [] := by
  refine ⟨readLifetime_attempt rfl rfl (ScriptedCollector.smallKeys (by decide) ?_)
    (by decide +kernel), ⟨(4, ⟨[.text "0x28", .text "\x7b\"value\":\"0x28\"\x7d"]⟩),
    by decide +kernel, rfl, fun e he => ?_⟩, fun c c' sub hsub => replay_eq_nil rfl hsub⟩
  · exact restartedLive_small (Nat.le_refl 1)
  · rw [show snapshotLifetime.yielded = [⟨10⟩, ⟨20⟩, ⟨20⟩] by decide +kernel] at he
    rintro (h | ⟨text, htext, hdecode⟩)
    · have hpayload : ∀ e ∈ ([⟨10⟩, ⟨20⟩, ⟨20⟩] : List ValueSet),
          RecordOps.payload Record e ≠ "\x7b\"value\":\"0x28\"\x7d" := by decide
      exact hpayload e he (SqlValue.text.inj (Option.some.inj h)).symm
    · obtain rfl := SqlValue.text.inj (Option.some.inj htext)
      have hdecoded : (⟨40⟩ : ValueSet) = e := Except.ok.inj hdecode
      rw [← hdecoded] at he
      exact absurd he (by decide)

/-- Without a bound the whole archive is replayed and the live stream goes on. -/
theorem stored_events_delivered_restarted :
    let s := readLifetime (scriptedWrapper 1 1 (by decide) none) (.from restartedBlocks 6 5)
      restartedArchive
    s.yielded = [⟨10⟩, ⟨20⟩, ⟨20⟩, ⟨40⟩, ⟨50⟩, ⟨60⟩] ∧
      Vouched (Record.inferred ValueSet.table)
        (s.store.archives ValueSet.table).rows s.yielded := by
  intro s
  refine ⟨by decide +kernel, ?_⟩
  have hpolled : Attempt (ScriptedCollector ValueSet) (scriptedWrapper 1 1 (by decide) none)
      ⟨false, .holding restartedArchive, []⟩ s :=
    readLifetime_attempt rfl rfl
      (ScriptedCollector.smallKeys (by decide) (restartedLive_small (Nat.le_refl 1)))
      (by decide +kernel)
  have hle : ∀ r ∈ restartedArchive.rows, r.1 ≤ 5 := by decide +kernel
  have hord : restartedArchive.Orderly :=
    ⟨by decide +kernel, fun r hr => ⟨⟨5⟩, by decide +kernel, hle r hr⟩⟩
  have hdelivered := ((stored_events_delivered (ScriptedCollector.ranged ValueSet)
    (p := scriptedWrapper 1 1 (by decide) none) rfl hord (.single hpolled)).2.1 rfl).1
  have hall : (scriptedWrapper 1 1 (by decide) none).within
      (s.store.archives ValueSet.table) = (s.store.archives ValueSet.table).rows :=
    List.filter_eq_self.mpr fun _ _ => rfl
  exact hall ▸ hdelivered

end ArtemisLight
