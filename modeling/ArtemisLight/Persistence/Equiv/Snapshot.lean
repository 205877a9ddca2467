import ArtemisLight.Persistence.Equiv.Slices
import ArtemisLight.Persistence.Equiv.Subscribe
import ArtemisLight.Persistence.Writer.Equiv.Settled

/-!
## Bounded subscriptions

A subscription with an upper bound has no live tail, and its backfill settles as a whole: it replays
what is stored up to the bound and delivers and stores what is missing up to the bound or the tip.
-/

namespace ArtemisLight

variable {τ σ ρ P E : Type}

/-! ### Rows in the archive -/

/-- The rows of some groups as a reader of the archive sees them. -/
def keyedRows [Position P] (groups : List (P × List Row)) : List (Nat × Option SqlValue) :=
  groups.flatMap fun g => g.2.map fun row => (Position.sortKey g.1, row.payload?)

/-- A positioned event as a reader of the archive sees it. -/
def storedAs (ρ : Type) [Position P] [RecordOps ρ E] (x : P × E) : Nat × Option SqlValue :=
  (Position.sortKey x.1, some (.text (RecordOps.payload ρ x.2)))

theorem keyedRows_append [Position P] (groups groups' : List (P × List Row)) :
    keyedRows (groups ++ groups') = keyedRows groups ++ keyedRows groups' :=
  List.flatMap_append

theorem keyedRows_add [Position P] [LawfulPosition P] {g : Groups P} {position : P} {row : Row}
    (hle : ∀ x ∈ g.last, Position.sortKey x.1 ≤ Position.sortKey position) :
    keyedRows (g.add position row).all
      = keyedRows g.all ++ [(Position.sortKey position, row.payload?)] := by
  unfold Groups.add Groups.all
  rcases hlast : g.last with _ | ⟨cur, rows⟩
  · simp [keyedRows]
  · have hkey := hle _ hlast
    dsimp only
    split
    · simp [keyedRows]
    · have hcur : Position.sortKey position = Position.sortKey cur := by
        dsimp only at hkey
        omega
      have hadvance : Position.sortKey (Position.advance (some cur) position)
          = Position.sortKey cur := by
        rw [LawfulPosition.sortKey_advance, hcur, max_self]
      simp [keyedRows, hadvance, hcur]

/-- What the archive holds after a trace: its rows, and those of the groups written. -/
theorem Archive.keyed_after [Position P] (a : Archive P) (effects : List (Effect P E)) :
    (a.after effects).rows.map keyed = a.rows.map keyed ++ keyedRows (writes effects) := by
  unfold Archive.after
  induction writes effects generalizing a with
  | nil => exact (List.append_nil _).symm
  | cons g groups ih =>
    rw [List.foldl_cons, ih, ← List.singleton_append, keyedRows_append, ← List.append_assoc]
    congr 1
    simp [Archive.commit, keyedRows, keyed]

section Writers

/-! ### Everything is stored -/

variable [Position P] [LawfulPosition P] [Store σ P] [RecordOps ρ E]

/-- With a store that does not fail and events that encode, the writer has written the closed groups
of what is missing and buffers the last one. -/
structure Collects (W : σ → Prop) (R : ρ → Prop) (last : Option P) (done : List (P × E))
    (s : BlockWriter P × Io σ ρ P E) : Prop where
  covers : Covers last done s.1
  store : W s.2.store
  record : R s.2.record
  groups : ∃ g, BlockWriter.Holds last g s.1 s.2.effects ∧
    keyedRows g.all = (missing last done).map (storedAs ρ)

omit [LawfulPosition P] [Store σ P] [RecordOps ρ E] in
/-- A delivery leaves the groups as they are. -/
theorem BlockWriter.Holds.deliver {last : Option P} {g : Groups P} {w : BlockWriter P}
    {io : Io σ ρ P E} (h : Holds last g w io.effects) (position : P) (event : E)
    (delivered : Bool) :
    Holds last g w (io.deliver position event delivered).effects := by
  refine ⟨h.healthy, h.schema, h.current, h.buffer, h.watermark, ?_⟩
  show writes (io.effects ++ _) = _
  rw [writes_append, h.written]
  cases delivered <;> exact List.append_nil _

theorem Collects.step {W : σ → Prop} {R : ρ → Prop} {D : E → Prop} {last : Option P}
    {events done rest : List (P × E)} {y : P × E} (hW : Reliable P W) (hR : Encodes D R)
    (hD : ∀ x ∈ events, D x.2) (hasc : Ascending last events) (hid : Identified events)
    (hsplit : events = done ++ y :: rest) {s : BlockWriter P × Io σ ρ P E}
    (h : Collects W R last done s) :
      Collects W R last (done ++ [y]) (BlockWriter.settleOne s y) := by
  have hy : y ∈ events := by rw [hsplit]; simp
  have hle := hasc.le hsplit
  have hcovers := hasc.covers hsplit h.covers s.2
  obtain ⟨g, hholds, hrows⟩ := h.groups
  have hcovered (hP : Position.reobservation P = .dedupe) :
      g.covered last y.1 = last.any (Position.contains · y.1) := by
    rw [← h.covers.covered_eq hP (hsplit ▸ hid) hle, hholds.covered_eq]
  -- a covered identity is dropped, and the stored position holds it
  by_cases hd : g.Drops last y.1
  · have hany : last.any (Position.contains · y.1) = true := (hcovered hd.1).symm.trans hd.2
    have hone : BlockWriter.settleOne s y = (s.1, s.2.deliver y.1 y.2 false) := by
      unfold BlockWriter.settleOne
      rw [hholds.record_dropped y.2 hd]
    rw [hholds.record_dropped y.2 hd] at hcovers
    rw [hone]
    refine ⟨hcovers, h.store, h.record, g, hholds.deliver y.1 y.2 false, ?_⟩
    rw [missing_concat, if_pos hany, List.append_nil]
    exact hrows
  · have hany : last.any (Position.contains · y.1) = false := by
      rcases hP : Position.reobservation P with _ | _
      · exact (Option.any_eq_false _ _).mpr fun l hl => hasc.uncovered hP l hl y hy
      · rw [← hcovered hP]
        exact Bool.eq_false_iff.mpr fun h => hd ⟨hP, h⟩
    have hlast : ∀ x ∈ g.last, Position.sortKey x.1 ≤ Position.sortKey y.1 := by
      intro x hx
      have hcur : x.1 ∈ s.1.current := by
        rw [hholds.current, Option.mem_def.mp hx]
        rfl
      obtain ⟨z, hz, hkey⟩ := h.covers.current_mem hcur
      rw [← hkey]
      exact hle z hz
    obtain ⟨row, record, he, hR'⟩ := hR s.2.record h.record y.2 (hD y hy)
    obtain ⟨w', io', hrec, hrecord, hs', hholds'⟩ := hholds.record hW h.store he hd hlast
    have hone : BlockWriter.settleOne s y = (w', io'.deliver y.1 y.2 true) := by
      unfold BlockWriter.settleOne
      rw [hrec]
    rw [hrec] at hcovers
    rw [hone]
    refine ⟨hcovers, hs', hrecord ▸ hR', g.add y.1 row, hholds'.deliver y.1 y.2 true, ?_⟩
    rw [keyedRows_add hlast, hrows, missing_concat, hany, RecordOps.encode_payload he,
      if_neg Bool.false_ne_true, List.map_append]
    rfl

theorem collects_run {W : σ → Prop} {R : ρ → Prop} {D : E → Prop} {last : Option P}
    {events : List (P × E)} (hW : Reliable P W) (hR : Encodes D R) (hD : ∀ x ∈ events, D x.2)
    (hasc : Ascending last events) (hid : Identified events) {store : σ} (hs : W store) {record : ρ}
    (hr : R record) :
    Collects W R last events
      (events.foldl BlockWriter.settleOne (BlockWriter.new last, ⟨store, record, []⟩)) := by
  refine foldl_invariant _ ?_ fun done y rest s hsplit h => h.step hW hR hD hasc hid hsplit
  exact ⟨Covers.new last, hs, hr, Groups.empty, .new last, rfl⟩

/-! ### The end of a bounded subscription -/

omit [LawfulPosition P] in
/-- Up to the final cut every event settles. -/
theorem backfill_settles {cut : Nat} (events : List (P × E))
    (hle : ∀ x ∈ events, Position.sortKey x.1 ≤ cut) (s : Pipeline σ ρ P E) :
    events.foldl (Pipeline.backfillStep (some cut)) s
      = { s with
          settled := (events.foldl BlockWriter.settleOne (s.settled, s.io)).1
          io := (events.foldl BlockWriter.settleOne (s.settled, s.io)).2 } := by
  induction events generalizing s with
  | nil => rfl
  | cons y events ih =>
    rw [List.foldl_cons, Pipeline.backfillStep_of_le s y.2 rfl (hle y List.mem_cons_self),
      ih fun x hx => hle x (List.mem_cons_of_mem y hx)]
    rfl

omit [LawfulPosition P] [RecordOps ρ E] in
/-- The end of a bounded subscription writes the trailing group, and logs a halt if the writer has
halted. -/
theorem settle_effects (s : Pipeline σ ρ P E) : ∃ xs, (∀ x ∈ xs, x.Quiet) ∧ writes xs = [] ∧
    s.settle.io.effects = (s.settled.finish s.io).2.effects ++ xs := by
  cases hh : (s.settled.finish s.io).1.core.healthy
  · rw [s.settle_of_unhealthy hh]
    refine ⟨[.halted s.window.core.writer .settledHalted], fun x hx => ?_, rfl, rfl⟩
    rw [List.mem_singleton.mp hx]
    trivial
  · rw [s.settle_of_healthy hh]
    exact ⟨[], fun x hx => absurd hx List.not_mem_nil, rfl, (List.append_nil _).symm⟩

section Bounded

variable {last : Option P} {events : List (P × E)} {hi depth : Nat}

omit [LawfulPosition P] in
/-- The effects of a bounded subscription are those of the settled events, then what its end
writes. -/
theorem bounded_effects (last : Option P) (depth : Nat)
    (hle : ∀ x ∈ events, Position.sortKey x.1 ≤ hi) (store : σ) (record : ρ) :
    let s := events.foldl BlockWriter.settleOne (BlockWriter.new last, ⟨store, record, []⟩)
    ∃ xs, (∀ x ∈ xs, x.Quiet) ∧ writes xs = [] ∧
      (persistAndEmit events [] store record depth (some hi) last).io.effects
        = (s.1.finish s.2).2.effects ++ xs := by
  intro s
  unfold persistAndEmit
  rw [List.foldl_nil, backfill_settles events hle]
  exact settle_effects _

omit [LawfulPosition P] [RecordOps ρ E] in
/-- The end of the range writes at most the open group. -/
theorem finish_writes (w : BlockWriter P) (io : Io σ ρ P E) :
    ∀ g ∈ writes (w.finish io).2.effects, g ∈ writes io.effects ∨ ∃ cur ∈ w.current, g.1 = cur := by
  intro g hg
  cases hh : w.core.healthy
  · rw [show w.finish io = (w, io) by simp [BlockWriter.finish, hh]] at hg
    exact .inl hg
  rcases hcur : w.current with _ | cur
  · rw [show w.finish io = (w, io) by simp [BlockWriter.finish, hh, hcur]] at hg
    exact .inl hg
  rcases hsch : w.core.schema with _ | schema
  · rw [show (w.finish io).2 = io by
      simp [BlockWriter.finish, hh, hcur, GapFreeWriter.flush, hsch]] at hg
    exact .inl hg
  rcases hw : Store.write io.store schema cur w.buffer with ⟨e | u, store⟩
  · rw [show (w.finish io).2.effects = io.effects ++ [.halted w.core.writer (.write e)] by
      simp [BlockWriter.finish, hh, hcur, GapFreeWriter.flush, hsch, hw], writes_append] at hg
    exact .inl ((List.mem_append.mp hg).resolve_right List.not_mem_nil)
  · rw [show (w.finish io).2.effects = io.effects ++ [.wrote w.core.writer cur w.buffer] by
      simp [BlockWriter.finish, hh, hcur, GapFreeWriter.flush, hsch, hw], writes_append] at hg
    refine (List.mem_append.mp hg).imp_right fun hg => ⟨cur, rfl, ?_⟩
    rw [List.mem_singleton.mp (show g ∈ [(cur, w.buffer)] from hg)]

/-- Whatever fails, what is delivered are events of the range, in order, and nothing is written
above it. -/
theorem bounded_safe (depth : Nat) (hasc : Ascending last events)
    (hle : ∀ x ∈ events, Position.sortKey x.1 ≤ hi)
    (store : σ) (record : ρ) :
    (yields (persistAndEmit events [] store record depth (some hi) last).io.effects).Sublist
        (events.map Prod.snd) ∧
      ∀ g ∈ writes (persistAndEmit events [] store record depth (some hi) last).io.effects,
        Position.sortKey g.1 ≤ hi := by
  have hrun := settles_run hasc hle store record
  obtain ⟨xs, hquiet, hxs, heffects⟩ :=
    bounded_effects last depth hle store record
  generalize events.foldl BlockWriter.settleOne (BlockWriter.new last, ⟨store, record, []⟩) = s
    at hrun heffects
  obtain ⟨store', ys, hfinish, hys⟩ := s.1.finish_quiet s.2
  constructor
  · rw [heffects, yields_append, yields_of_quiet hquiet, List.append_nil, hfinish, yields_append,
      yields_of_quiet hys, List.append_nil]
    exact hrun.delivered
  · intro g hg
    rw [heffects, writes_append, hxs, List.append_nil] at hg
    rcases finish_writes s.1 s.2 g hg with hg | ⟨cur, hcur, rfl⟩
    · exact hrun.written g hg
    · obtain ⟨x, hx, hkey⟩ := hrun.covers.current_mem hcur
      rw [← hkey]
      exact hle x hx

/-- If the events at the stored sort key encode, what is delivered is what the stored position does
not cover, whatever the store does. -/
theorem bounded_delivers {R : ρ → Prop} (hasc : Ascending last events) (hid : Identified events)
    (hle : ∀ x ∈ events, Position.sortKey x.1 ≤ hi)
    (henc : Encodes (fun e => ∃ x ∈ events, x.2 = e ∧
      ∃ l ∈ last, Position.sortKey x.1 = Position.sortKey l) R) (store : σ) {record : ρ}
    (hR : R record) :
    yields (persistAndEmit events [] store record depth (some hi) last).io.effects
      = (missing last events).map Prod.snd := by
  have hrun := resumes_run hasc hid henc store hR
  obtain ⟨xs, hquiet, -, heffects⟩ :=
    bounded_effects last depth hle store record
  obtain ⟨store', ys, hfinish, hys⟩ := BlockWriter.finish_quiet
    (events.foldl BlockWriter.settleOne (BlockWriter.new last, ⟨store, record, []⟩)).1
    (events.foldl BlockWriter.settleOne (BlockWriter.new last, ⟨store, record, []⟩)).2
  rw [heffects, yields_append, yields_of_quiet hquiet, List.append_nil, hfinish, yields_append,
    yields_of_quiet hys, List.append_nil]
  exact hrun.delivered

/-- If all events encode and the store does not fail, what is delivered is stored as well. -/
theorem bounded_stores {W : σ → Prop} {R : ρ → Prop} {D : E → Prop} (hW : Reliable P W)
    (hR : Encodes D R) (hD : ∀ x ∈ events, D x.2) (hasc : Ascending last events)
    (hid : Identified events) (hle : ∀ x ∈ events, Position.sortKey x.1 ≤ hi) {store : σ}
    (hs : W store) {record : ρ} (hr : R record) (a : Archive P) :
    (a.after (persistAndEmit events [] store record depth (some hi) last).io.effects).rows.map keyed
      = a.rows.map keyed ++ (missing last events).map (storedAs ρ) := by
  have hrun := collects_run hW hR hD hasc hid hs hr
  obtain ⟨xs, -, hxs, heffects⟩ :=
    bounded_effects last depth hle store record
  obtain ⟨g, hholds, hrows⟩ := hrun.groups
  rw [Archive.keyed_after, heffects, writes_append, hxs, List.append_nil,
    (hholds.finish hW hrun.store).1, hrows]

end Bounded

end Writers

/-! ### A source that answers -/

/-- An exact source that answers: it rejects a range only for its size, and never that of a single
sort key. -/
structure AnsweringSource [Position P] [PersistableCollector τ P E] (events : Nat → List (P × E))
    (H : τ → Prop) :
    Prop extends ExactSource events H where
  keyed : ∀ k, ∀ x ∈ events k, Position.sortKey x.1 = k
  rejects : ∀ c, H c → ∀ (a b : P) e c',
    PersistableCollector.queryRange (E := E) c a b = (.error e, c') →
      Position.sortKey a < Position.sortKey b ∧ isResponseSizeError e = true
  tip_closed : ∀ c, H c → H (PersistableCollector.tip (P := P) E c).2

section Answering

variable [Position P] [PersistableCollector τ P E] {events : Nat → List (P × E)} {H : τ → Prop}

/-- Bisecting always ends with an answer. -/
theorem AnsweringSource.bisects (hS : AnsweringSource events H)
    (hkey : ∀ k, Position.sortKey (Position.fromSortKey k : P) = k) (fuel : Nat) (c : τ)
      (lo hi : Nat)
    (hc : H c) (hfuel : hi - lo ≤ fuel) :
    ∃ stream c', queryRangeSplitAux (P := P) (E := E) fuel c lo hi = (.ok stream, c') ∧ H c' := by
  induction fuel generalizing c lo hi with
  | zero =>
    have hclosed := hS.query_closed c hc (Position.fromSortKey lo) (Position.fromSortKey hi)
    unfold queryRangeSplitAux
    rcases hq : PersistableCollector.queryRange (E := E) c (Position.fromSortKey lo : P)
      (Position.fromSortKey hi) with ⟨e | stream, c'⟩
    · have hlt := (hS.rejects c hc _ _ e c' hq).1
      rw [hkey, hkey] at hlt
      omega
    · rw [hq] at hclosed
      exact ⟨stream, c', rfl, hclosed⟩
  | succ fuel ih =>
    have hclosed := hS.query_closed c hc (Position.fromSortKey lo) (Position.fromSortKey hi)
    unfold queryRangeSplitAux
    rcases hq : PersistableCollector.queryRange (E := E) c (Position.fromSortKey lo : P)
      (Position.fromSortKey hi) with ⟨e | stream, c'⟩
    · rw [hq] at hclosed
      obtain ⟨hlt, hsize⟩ := hS.rejects c hc _ _ e c' hq
      rw [hkey, hkey] at hlt
      obtain ⟨left, c₁, hleft, hc₁⟩ := ih c' lo (lo + (hi - lo) / 2) hclosed (by omega)
      obtain ⟨right, c₂, hright, hc₂⟩ := ih c₁ (lo + (hi - lo) / 2 + 1) hi hc₁ (by omega)
      refine ⟨left ++ right, c₂, ?_, hc₂⟩
      simp only [hlt, hsize, and_self, if_true, hleft, hright]
    · rw [hq] at hclosed
      exact ⟨stream, c', rfl, hclosed⟩

/-- So the loop over the slices is never poisoned. -/
theorem AnsweringSource.loops (hS : AnsweringSource events H)
    (hkey : ∀ k, Position.sortKey (Position.fromSortKey k : P) = k) (fuel : Nat) (c : τ)
    (start hi chunk : Nat) (hc : H c) :
    (chunkLoop (P := P) (E := E) fuel c start hi chunk).1.2 ≠ .poisoned ∧
      H (chunkLoop (P := P) (E := E) fuel c start hi chunk).2 := by
  induction fuel generalizing c start with
  | zero =>
    unfold chunkLoop
    refine ⟨?_, hc⟩
    dsimp only
    split <;> simp
  | succ fuel ih =>
    unfold chunkLoop queryRangeSplit
    split
    · obtain ⟨stream, c', hq, hc'⟩ :=
        hS.bisects hkey _ c start (windowEnd start hi chunk) hc (Nat.le_refl _)
      simp only [hq]
      exact ih c' _ hc'
    · exact ⟨by simp, hc⟩

/-- The backfill of a range below `u64::MAX` is all of its events, and it ends. -/
theorem AnsweringSource.backfills (hS : AnsweringSource events H)
    (hkey : ∀ k, Position.sortKey (Position.fromSortKey k : P) = k) (lo : Nat) {hi chunk : Nat}
    (hmax : hi < u64Max) (hchunk : 0 < chunk) (c : τ) (hc : H c) :
    ∃ c', backfillSegment c lo hi chunk = (.ok (eventsIn events lo hi, .exhausted), c') ∧ H c' := by
  unfold backfillSegment
  split
  · rename_i hlt
    rw [eventsIn_of_lt hlt]
    exact ⟨c, rfl, hc⟩
  · rename_i hle
    have hsliced := sliced_chunkedQuery hS.toExactSource hkey (Nat.le_of_not_lt hle) hmax hchunk
      ⟨c, []⟩ hc rfl
    have hlogged := chunkedQuery_logged (P := P) (E := E) (⟨c, []⟩ : Logged τ) lo hi chunk
    have hok : ∃ stream outcome c', chunkedQuery (P := P) (E := E) c lo hi chunk
        = (.ok (stream, outcome), c') ∧ outcome ≠ .poisoned ∧ H c' := by
      obtain ⟨first, c₁, hq, hc₁⟩ :=
        hS.bisects hkey _ c lo (windowEnd lo hi chunk) hc (Nat.le_refl _)
      unfold chunkedQuery queryRangeSplit
      simp only [hq]
      obtain ⟨hne, hc₂⟩ := hS.loops hkey (hi - windowEnd lo hi chunk) c₁
        (saturatingAdd u64Max (windowEnd lo hi chunk) 1) hi chunk hc₁
      exact ⟨_, _, _, rfl, hne, hc₂⟩
    obtain ⟨stream, outcome, c', hq, hne, hc'⟩ := hok
    refine ⟨c', ?_, hc'⟩
    rw [hq] at hlogged ⊢
    rw [← (Prod.mk.inj hlogged).1] at hsliced
    generalize (chunkedQuery (P := P) (E := E) (⟨c, []⟩ : Logged τ) lo hi chunk).2.calls = log
      at hsliced
    cases hsliced with
    | whole calls hans => rfl
    | poisoned => exact absurd rfl hne

end Answering

/-! ### What is stored -/

/-- The archive holds the history `stored`: its rows are these events, in the order of their sort
keys, the stored position covers them, and they read back. -/
structure History [Position P] [RecordOps ρ E] (record : ρ) (a : Archive P)
    (stored : List (P × E)) :
    Prop where
  rows : a.rows.map keyed = stored.map (storedAs ρ)
  sorted : stored.Pairwise fun x y => Position.sortKey x.1 ≤ Position.sortKey y.1
  covered : ∀ x ∈ stored, ∃ l ∈ a.position, Position.contains l x.1 = true
  readable : ∀ x ∈ stored, RecordOps.decode record (RecordOps.payload ρ x.2) = .ok x.2
  fits : ∀ l ∈ a.position, Position.sortKey l ≤ u64Max

/-- The reads of the table answer. -/
structure Readable [Position P] [Archival σ P] (store : σ) (table : String) : Prop where
  position : Store.storedPosition store table = .ok (Archival.archive (P := P) store table).position
  replay : ∀ p : P, ∃ rows, Store.replay store ⟨table, [⟨payloadColumn, .text⟩]⟩ p = .ok rows

section Subscription

variable [Position P] [RecordOps ρ E] {record : ρ} {a : Archive P} {stored : List (P × E)}

/-- The archive up to a sort key is the history up to it. -/
theorem History.upTo (h : History record a stored) (key : Nat) :
    (a.upTo key).map (fun r => r.payload?.toList)
      = (stored.filter fun x => decide (Position.sortKey x.1 ≤ key)).map fun x =>
          [.text (RecordOps.payload ρ x.2)] := by
  have hfilter := congrArg (List.filter fun v => decide (v.1 ≤ key)) h.rows
  rw [List.filter_map, List.filter_map] at hfilter
  have hvalues := congrArg (List.map fun v => v.2.toList) hfilter
  rw [List.map_map, List.map_map] at hvalues
  unfold Archive.upTo
  rw [List.map_map]
  exact hvalues

/-- The rows of the archive come in the order of their sort keys. -/
theorem History.rows_sorted (h : History record a stored) :
    a.rows.Pairwise fun r r' => r.1 ≤ r'.1 := by
  have hsorted : (a.rows.map keyed).Pairwise fun v v' => v.1 ≤ v'.1 := by
    rw [h.rows, List.pairwise_map]
    exact h.sorted
  rw [List.pairwise_map] at hsorted
  exact hsorted

omit [Position P] in
/-- Rows whose cells are the payloads of some events decode to these events. -/
theorem decode_rows {rows : List Row} {events : List (P × E)}
    (hrows : rows.map Row.cells = events.map fun x => [.text (RecordOps.payload ρ x.2)])
    (hdecode : ∀ x ∈ events, RecordOps.decode record (RecordOps.payload ρ x.2) = .ok x.2) :
    rows.mapM (decodeRow record) = .ok (events.map Prod.snd) := by
  induction events generalizing rows with
  | nil =>
    rw [List.map_eq_nil_iff.mp hrows]
    rfl
  | cons x events ih =>
    obtain ⟨row, rows, rfl, hrow, hrest⟩ := List.map_eq_cons_iff.mp hrows
    have hx : decodeRow record row = .ok x.2 := by
      unfold decodeRow
      rw [hrow]
      exact hdecode x List.mem_cons_self
    rw [List.mapM_cons, hx, ih hrest fun y hy => hdecode y (List.mem_cons_of_mem x hy)]
    rfl

/-- Replaying up to a position decodes the history up to its sort key. -/
theorem History.replayStored [Archival σ P] {store : σ}
    (ha : Archival.archive store (RecordOps.table E record) = a)
    (hread : Readable (P := P) store (RecordOps.table E record)) (h : History record a stored)
    (q : P) :
    (ArtemisLight.replayStored store record (some q) : Except Error (List E))
      = .ok ((stored.filter fun x => decide (Position.sortKey x.1 ≤ Position.sortKey q)).map
          Prod.snd) := by
  obtain ⟨rows, hrows⟩ := hread.replay q
  have hcells : rows.map Row.cells = (stored.filter fun x =>
      decide (Position.sortKey x.1 ≤ Position.sortKey q)).map fun x =>
        [.text (RecordOps.payload ρ x.2)] := by
    rw [Archival.replay_ok (by rw [ha]; exact h.rows_sorted) hrows, ha]
    exact h.upTo (Position.sortKey q)
  unfold ArtemisLight.replayStored
  simp only [hrows]
  exact decode_rows hcells fun x hx => h.readable x (List.mem_of_mem_filter hx)

/-- The first subscription replays the history up to the bound. -/
theorem History.replayed [LawfulPosition P] [Archival σ P] {p : Persisted ρ} {cap : Nat}
    (hbound : p.toBlock = some cap)
    (hkey : ∀ k, Position.sortKey (Position.fromSortKey k : P) = k) {store : σ}
    (ha : Archival.archive store (RecordOps.table E record) = a)
    (hread : Readable (P := P) store (RecordOps.table E record)) (h : History record a stored) :
    (replaySegment store false record (p.replayUpTo a.position) : Except Error (List E))
      = .ok ((stored.filter fun x => decide (Position.sortKey x.1 ≤ cap)).map Prod.snd) := by
  unfold replaySegment Persisted.replayUpTo
  rw [hbound, if_neg Bool.false_ne_true]
  rcases hlast : a.position with _ | l
  · -- nothing is stored
    have hnil : stored = [] := by
      rw [List.eq_nil_iff_forall_not_mem]
      intro x hx
      obtain ⟨l, hl, -⟩ := h.covered x hx
      exact nomatch hlast.symm.trans hl
    rw [hnil]
    rfl
  · dsimp only
    split
    · rw [h.replayStored ha hread, hkey]
    · -- the whole history is at or below the stored position, and so below the bound
      rename_i hcap
      rw [h.replayStored ha hread]
      congr 2
      apply List.filter_congr
      intro x hx
      obtain ⟨l', hl', hcontains⟩ := h.covered x hx
      obtain rfl := Option.some.inj (hlast.symm.trans hl')
      have hle := LawfulPosition.le_of_contains l x.1 hcontains
      rw [decide_eq_true hle, decide_eq_true (by omega)]

/-! ### The whole subscription -/

omit [RecordOps ρ E] in
/-- The events of a range come in the order of their sort keys. -/
theorem eventsIn_sorted {events : Nat → List (P × E)}
    (hkeyed : ∀ k, ∀ x ∈ events k, Position.sortKey x.1 = k) (lo hi : Nat) :
    (eventsIn events lo hi).Pairwise fun x y => Position.sortKey x.1 ≤ Position.sortKey y.1 := by
  unfold eventsIn
  rw [List.pairwise_flatMap]
  constructor
  · intro k _
    rw [List.pairwise_iff_forall_sublist]
    intro x y hxy
    rw [hkeyed k x (hxy.subset (by simp)), hkeyed k y (hxy.subset (by simp))]
  · apply (List.pairwise_lt_range' (s := lo) (n := hi + 1 - lo)).imp
    intro j k hjk x hx y hy
    rw [hkeyed j x hx, hkeyed k y hy]
    exact Nat.le_of_lt hjk

omit [RecordOps ρ E] in
/-- The gap of a subscription starts above what the stored position covers for good. -/
theorem ascending_gap [ResumablePosition P] [PersistableCollector τ P E]
    {events : Nat → List (P × E)} {H : τ → Prop} (hS : AnsweringSource events H) (p : Persisted ρ)
    {last : Option P} (hfits : ∀ l ∈ last, Position.sortKey l ≤ u64Max) {hi : Nat}
    (hmax : hi < u64Max) : Ascending last (eventsIn events (p.backfillFrom last) hi) := by
  have hresume : ∀ l ∈ last, ∀ x ∈ eventsIn events (p.backfillFrom last) hi,
      Position.resumeKey l ≤ Position.sortKey x.1 ∧ Position.sortKey x.1 ≤ hi := by
    intro l hl x hx
    obtain ⟨k, hlo, hhi, hx⟩ := mem_eventsIn.mp hx
    rw [hS.keyed k x hx]
    refine ⟨le_trans ?_ hlo, hhi⟩
    unfold Persisted.backfillFrom
    rw [Option.mem_def.mp hl]
    exact Nat.le_max_left _ _
  refine ⟨eventsIn_sorted hS.keyed _ _, fun l hl x hx => ?_, fun hP l hl x hx => ?_⟩
  · exact (ResumablePosition.le_resumeKey l (hfits l hl)).trans (hresume l hl x hx).1
  · obtain ⟨hlo, hhi⟩ := hresume l hl x hx
    rw [Bool.eq_false_iff]
    intro hcontains
    have hle := LawfulPosition.le_of_contains l x.1 hcontains
    have hresumes := ResumablePosition.le_resumeKey l (hfits l hl)
    have hlt := ResumablePosition.lt_resumeKey hP l (by omega)
    omega

/-- A bounded subscription is an exact snapshot.  A first subscribe with an upper bound replays the
history up to the bound; its backfill, the gap up to the bound and the tip, ends; whatever fails,
nothing else is delivered and nothing is written above the gap.  If the events at the stored sort
key encode, exactly what the stored position does not cover is delivered, and if nothing fails it is
stored when the stream ends. -/
theorem bounded_snapshot [ResumablePosition P] [PersistableCollector τ P E] [Archival σ P]
    {events : Nat → List (P × E)} {H : τ → Prop} (hS : AnsweringSource events H) {p : Persisted ρ}
    {cap : Nat} (hbound : p.toBlock = some cap) (hfirst : p.replayed = false)
    (hrecord : p.record = .ok record) {c c₁ : τ} (hc : H c) {tip : P}
    (htip : PersistableCollector.tip E c = (.ok tip, c₁))
    (hmax : min cap (Position.sortKey tip) < u64Max) {store : σ}
    (hread : Readable (P := P) store (RecordOps.table E record))
    (hstored : History record (Archival.archive store (RecordOps.table E record)) stored) :
    let a : Archive P := Archival.archive store (RecordOps.table E record)
    let hi := min cap (Position.sortKey tip)
    let gap := eventsIn events (p.backfillFrom a.position) hi
    ∃ (sub : Subscription P E) (c' : τ), p.subscribe c store = (.ok sub, c') ∧
      backfillSegment c₁ (p.backfillFrom a.position) hi p.backfillChunkSize
        = (.ok (gap, .exhausted), c') ∧
      sub.replay = (stored.filter fun x => decide (Position.sortKey x.1 ≤ cap)).map Prod.snd ∧
      (yields sub.synced).Sublist (gap.map Prod.snd) ∧
      (∀ g ∈ writes sub.synced, Position.sortKey g.1 ≤ hi) ∧
      (Identified gap → ∀ R : ρ → Prop, R record →
        Encodes (fun e => ∃ x ∈ gap, x.2 = e ∧
          ∃ l ∈ a.position, Position.sortKey x.1 = Position.sortKey l) R →
        yields sub.synced = (missing a.position gap).map Prod.snd) ∧
      (Identified gap → ∀ (R : ρ → Prop) (W : σ → Prop) (D : E → Prop), R record → W store →
        Reliable P W → Encodes D R → (∀ x ∈ gap, D x.2) →
        (a.after sub.synced).rows.map keyed
          = a.rows.map keyed ++ (missing a.position gap).map (storedAs ρ)) := by
  intro a hi gap
  have hkey : ∀ k, Position.sortKey (Position.fromSortKey k : P) = k :=
    ResumablePosition.sortKey_fromSortKey
  have hlive : (p.liveSource c : Except Error (List (Indexed P E)) × τ) = (.ok [], c) :=
    Persisted.liveSource_of_bounded hbound c
  have hc₁ : H c₁ := by
    have h := hS.tip_closed c hc
    rw [htip] at h
    exact h
  have heffective : p.effectiveTip (Position.sortKey tip) = hi := by
    unfold Persisted.effectiveTip
    rw [hbound]
    rfl
  -- the whole backfill is final, so the settled writer gets all of it
  have hcut : p.finalCut (Position.sortKey tip) = some hi := by
    unfold Persisted.finalCut
    rw [hbound, Option.isSome_some, if_pos rfl, heffective]
  obtain ⟨c', hbackfill, -⟩ := hS.backfills hkey (p.backfillFrom a.position) hmax p.chunk_pos
    c₁ hc₁
  have hreplay := hstored.replayed hbound hkey rfl hread
  have hasc : Ascending a.position gap := ascending_gap hS p hstored.fits hmax
  have hle : ∀ x ∈ gap, Position.sortKey x.1 ≤ hi := by
    intro x hx
    obtain ⟨k, -, hhi, hx⟩ := mem_eventsIn.mp hx
    rw [hS.keyed k x hx]
    exact hhi
  obtain ⟨hyields, hwrites⟩ := bounded_safe p.confirmationDepth hasc hle store record
  refine ⟨⟨_, (persistAndEmit gap [] store record p.confirmationDepth (some hi)
    a.position).io.effects⟩, c', ?_, hbackfill, rfl, hyields, hwrites, ?_, ?_⟩
  · have hreplay' : (replaySegment store p.replayed record (p.replayUpTo a.position) :
        Except Error (List E))
          = .ok ((stored.filter fun x => decide (Position.sortKey x.1 ≤ cap)).map Prod.snd) := by
      rw [hfirst]
      exact hreplay
    have hposition : Store.storedPosition store (RecordOps.table E record) = .ok a.position :=
      hread.position
    have hbackfill' : backfillSegment c₁ (p.backfillFrom a.position) hi p.backfillChunkSize
        = (.ok (gap, .exhausted), c') := hbackfill
    unfold Persisted.subscribe
    simp only [hrecord, hlive, htip, hposition, hreplay', heffective, hbackfill', hcut,
      Persisted.synced]
  · intro hid R hR henc
    exact bounded_delivers hasc hid hle henc store hR
  · intro hid R W D hR hs hW henc hD
    exact bounded_stores hW henc hD hasc hid hle hs hR a

end Subscription

/-! ### A frontier source -/

/-- A source of positioned events that answers every query. -/
structure FrontierCollector (E : Type) where
  events : List (TimeFrontier × E)
  tip : Nat

/-- The events at an instant. -/
def FrontierCollector.at {E : Type} (events : List (TimeFrontier × E)) (k : Nat) :
    List (TimeFrontier × E) := events.filter fun x => decide (x.1.timeMs = k)

instance {E : Type} : PersistableCollector (FrontierCollector E) TimeFrontier E where
  subscribeIndexed c := (.ok [], c)
  queryRange c a b := (.ok (eventsIn (FrontierCollector.at c.events) a.timeMs b.timeMs), c)
  tip c := (.ok ⟨c.tip, ∅⟩, c)

theorem FrontierCollector.answering {E : Type} (events : List (TimeFrontier × E)) :
    AnsweringSource (FrontierCollector.at events)
      fun c : FrontierCollector E => c.events = events where
  query_closed _ hc _ _ := hc
  query_exact c hc a b stream c' h := by
    obtain ⟨h, -⟩ := Prod.mk.inj h
    rw [← Except.ok.inj h, ← hc]
    rfl
  keyed k x hx := of_decide_eq_true (List.mem_filter.mp hx).2
  rejects c _ a b e c' h := nomatch (Prod.mk.inj h).1
  tip_closed _ hc := hc

/-- An event whose amount may exceed what an INTEGER column holds. -/
structure Deposit where
  amount : Nat
  deriving DecidableEq, Repr

namespace Deposit

/-- The compact JSON text; a deposit serialises to no other shape. -/
def text : Value → String
  | .object [(name, .number (.posInt u))] => "\x7b\"" ++ name ++ "\":" ++ toString u ++ "\x7d"
  | _ => ""

/-- The digits of the one number. -/
def fromStr (s : String) : Except Error Deposit :=
  match digitsValue ((s.toList.dropWhile (! ·.isDigit)).takeWhile (·.isDigit)) 0 with
  | some amount => .ok ⟨amount⟩
  | none => .error "missing field amount"

instance : SerdeJson Deposit where
  toValue e := .ok (.object [("amount", .number (.posInt e.amount))])
  text := text
  fromStr := fromStr

/-- A record whose column is declared an integer. -/
def record : Record := ⟨"deposits", .declared [⟨"amount", .integer⟩]⟩

/-- Amounts up to `i64::MAX` encode. -/
theorem encodes : Encodes (fun e : Deposit => e.amount ≤ i64Max) fun r => r = record := by
  rintro r rfl e he
  refine ⟨⟨[.integer e.amount, .text (RecordOps.payload Record e)]⟩, record, ?_, rfl⟩
  have hsql : jsonToSql Deposit (.number (.posInt e.amount)) = .integer e.amount := if_pos he
  show record.encode e = _
  unfold Record.encode
  simp only [SerdeJson.toValue, fieldMap, List.map_cons, List.map_nil, hsql, Record.freezeColumns,
    Record.frozen, record]
  rfl

end Deposit

/-- The instant 5 has been stored with the identity `a`. -/
def depositArchive : Archive TimeFrontier :=
  ⟨[(5, ⟨[.integer 1, .text (RecordOps.payload Record (⟨1⟩ : Deposit))]⟩)], some ⟨5, {"a"}⟩⟩

def deposited : List (TimeFrontier × Deposit) := [(⟨5, {"a"}⟩, ⟨1⟩)]

/-- A wrapper bounded at the instant 9. -/
def boundedWrapper : Persisted Record :=
  { scriptedWrapper 0 1 Nat.one_pos (some 9) with record := .ok Deposit.record }

/-- What a bounded subscription to these events delivers on top of the stored deposit. -/
def boundedYields (events : List (TimeFrontier × Deposit)) : List Deposit :=
  yields (boundedWrapper.stream (⟨events, 9⟩ : FrontierCollector Deposit)
    (MemoryStore.holding depositArchive) : List (Effect TimeFrontier Deposit))

theorem deposit_history : History Deposit.record depositArchive deposited where
  rows := rfl
  sorted := by decide
  covered x hx := by
    rw [List.mem_singleton.mp hx]
    exact ⟨_, rfl, by decide⟩
  readable x hx := by
    rw [List.mem_singleton.mp hx]
    rfl
  fits l hl := by
    obtain rfl := Option.some.inj hl
    decide

/-- A deposit at the stored instant that does not fit the column halts the writer, which then
delivers the stored deposit again; and of two deposits with one identity the second is withheld. -/
theorem stored_event_redelivered : History Deposit.record depositArchive deposited ∧
    boundedYields [(⟨5, {"b"}⟩, ⟨2 ^ 63⟩), (⟨5, {"a"}⟩, ⟨1⟩)] = [⟨1⟩, ⟨2 ^ 63⟩, ⟨1⟩] ∧
    boundedYields [(⟨5, {"a"}⟩, ⟨1⟩), (⟨6, {"c"}⟩, ⟨2⟩), (⟨6, {"c"}⟩, ⟨3⟩)] = [⟨1⟩, ⟨2⟩] :=
  ⟨deposit_history, by decide +kernel, by decide +kernel⟩

/-- The source behind the archive, with one more deposit. -/
def depositSource : FrontierCollector Deposit := ⟨[(⟨5, {"a"}⟩, ⟨1⟩), (⟨6, {"b"}⟩, ⟨2⟩)], 9⟩

/-- A store that holds the archive. -/
def depositStore : MemoryStore TimeFrontier := .holding depositArchive

theorem bounded_snapshot_deposits : ∃ (sub : Subscription TimeFrontier Deposit) (c : _),
    boundedWrapper.subscribe depositSource depositStore = (.ok sub, c) ∧
      sub.replay = [⟨1⟩] ∧ yields sub.synced = [⟨2⟩] ∧
      (depositArchive.after sub.synced).rows.map keyed
        = [(5, some (.text "\x7b\"amount\":1\x7d")), (6, some (.text "\x7b\"amount\":2\x7d"))] := by
  have hread : Readable (P := TimeFrontier) depositStore (RecordOps.table Deposit Deposit.record) :=
    ⟨rfl, fun _ => ⟨_, rfl⟩⟩
  have harchive : (inferInstance : Archival (MemoryStore TimeFrontier) TimeFrontier).archive
      depositStore (RecordOps.table Deposit Deposit.record) = depositArchive := rfl
  have hbound : boundedWrapper.toBlock = some 9 := rfl
  have hrecord : boundedWrapper.record = .ok Deposit.record := rfl
  have htip : PersistableCollector.tip Deposit depositSource
      = (.ok (⟨9, ∅⟩ : TimeFrontier), depositSource) := rfl
  have hmax : min 9 (Position.sortKey (⟨9, ∅⟩ : TimeFrontier)) < u64Max := by decide
  have hclean : depositStore.fails = [] := rfl
  obtain ⟨sub, c, hsub, -, hreplay, -, -, hyields, hstores⟩ :=
    bounded_snapshot (FrontierCollector.answering depositSource.events) hbound rfl hrecord rfl htip
      hmax hread deposit_history
  have hgap : eventsIn (FrontierCollector.at depositSource.events)
      (boundedWrapper.backfillFrom depositArchive.position) 9 = depositSource.events := by decide
  have hid : Identified depositSource.events :=
    TimeFrontier.identified (by decide) (by decide)
  have hD : ∀ x ∈ depositSource.events, x.2.amount ≤ i64Max := by decide
  have hmin : min 9 (Position.sortKey (⟨9, ∅⟩ : TimeFrontier)) = 9 := rfl
  simp only [hmin, harchive, hgap] at hyields hstores
  have hresume : Encodes (fun e : Deposit => ∃ x ∈ depositSource.events, x.2 = e ∧
      ∃ l ∈ depositArchive.position, Position.sortKey x.1 = Position.sortKey l)
      fun r => r = Deposit.record := by
    rintro r hr e ⟨x, hx, rfl, -⟩
    exact Deposit.encodes r hr x.2 (hD x hx)
  refine ⟨sub, c, hsub, hreplay, ?_, ?_⟩
  · rw [hyields hid (fun r => r = Deposit.record) rfl hresume]
    decide
  · rw [hstores hid (fun r => r = Deposit.record) (fun s => s.fails = [])
      (fun e => e.amount ≤ i64Max) rfl hclean MemoryStore.reliable Deposit.encodes hD]
    decide +kernel

end ArtemisLight
