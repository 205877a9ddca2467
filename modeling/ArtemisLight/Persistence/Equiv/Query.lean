import ArtemisLight.Persistence.Chain
import ArtemisLight.Persistence.Equiv.Slices

/-!
# The sliced backfill query

Against a source that answers exactly, the stream that `backfillSegment` builds is the chain's
events from the start of the gap to the end of some window, and to the end of the gap unless a
window failed.
-/

namespace ArtemisLight

variable {τ E : Type} [PersistableCollector τ BlockPosition E] {chain : Nat → List E} {H : τ → Prop}

theorem queryRangeSplitAux_closed (hH : NonReorganising chain H) :
    ∀ (fuel : Nat) (c : τ) (lo hi : Nat), H c →
      H (queryRangeSplitAux (P := BlockPosition) (E := E) fuel c lo hi).2 := by
  intro fuel
  induction fuel with
  | zero =>
    intro c lo hi hc
    have hcl := hH.query_closed c hc ⟨lo⟩ ⟨hi⟩
    unfold queryRangeSplitAux
    simp only [BlockPosition.fromSortKey_eq]
    rcases hq : PersistableCollector.queryRange (E := E) c (⟨lo⟩ : BlockPosition) ⟨hi⟩
      with ⟨e | stream, c'⟩ <;> rw [hq] at hcl
    · simp only
      split <;> exact hcl
    · exact hcl
  | succ fuel ih =>
    intro c lo hi hc
    have hcl := hH.query_closed c hc ⟨lo⟩ ⟨hi⟩
    unfold queryRangeSplitAux
    simp only [BlockPosition.fromSortKey_eq]
    rcases hq : PersistableCollector.queryRange (E := E) c (⟨lo⟩ : BlockPosition) ⟨hi⟩
      with ⟨e | stream, c'⟩ <;> rw [hq] at hcl
    · simp only
      split
      · have hl := ih c' lo (lo + (hi - lo) / 2) hcl
        rcases hr : queryRangeSplitAux (P := BlockPosition) (E := E) fuel c' lo (lo + (hi - lo) / 2)
          with ⟨e' | left, c''⟩ <;> rw [hr] at hl
        · exact hl
        · have hrt := ih c'' (lo + (hi - lo) / 2 + 1) hi hl
          simp only
          rcases hr' : queryRangeSplitAux (P := BlockPosition) (E := E) fuel c''
            (lo + (hi - lo) / 2 + 1) hi with ⟨e'' | right, c₃⟩ <;> rw [hr'] at hrt <;> exact hrt
      · exact hcl
    · exact hcl

/-- A bisected window is the window. -/
theorem queryRangeSplitAux_exact (hH : NonReorganising chain H) :
    ∀ (fuel : Nat) (c : τ) (lo hi : Nat), H c → ∀ stream c',
      queryRangeSplitAux (P := BlockPosition) fuel c lo hi = (.ok stream, c') →
      stream = chainEvents chain lo hi := by
  intro fuel
  induction fuel with
  | zero =>
    intro c lo hi hc stream c' h
    unfold queryRangeSplitAux at h
    simp only [BlockPosition.fromSortKey_eq] at h
    rcases hq : PersistableCollector.queryRange (E := E) c (⟨lo⟩ : BlockPosition) ⟨hi⟩
      with ⟨e | s, c₁⟩
    · rw [hq] at h
      simp only at h
      split at h <;> exact absurd h (by simp)
    · rw [hq] at h
      obtain ⟨hs, -⟩ := Prod.mk.inj h
      rw [← Except.ok.inj hs]
      exact hH.query_exact c hc _ _ _ _ hq
  | succ fuel ih =>
    intro c lo hi hc stream c' h
    unfold queryRangeSplitAux at h
    simp only [BlockPosition.fromSortKey_eq] at h
    have hcl := hH.query_closed c hc ⟨lo⟩ ⟨hi⟩
    rcases hq : PersistableCollector.queryRange (E := E) c (⟨lo⟩ : BlockPosition) ⟨hi⟩
      with ⟨e | s, c₁⟩
    · rw [hq] at h hcl
      simp only at h
      -- a range that is too large is halved, and each half is exact by induction
      split at h
      · rename_i hlt
        have hcl' := queryRangeSplitAux_closed hH fuel c₁ lo (lo + (hi - lo) / 2) hcl
        rcases hl : queryRangeSplitAux (P := BlockPosition) (E := E) fuel c₁ lo (lo + (hi - lo) / 2)
          with ⟨e' | left, c₂⟩
        · rw [hl] at h
          exact absurd h (by simp)
        · rw [hl] at h hcl'
          simp only at h
          rcases hr : queryRangeSplitAux (P := BlockPosition) (E := E) fuel c₂
            (lo + (hi - lo) / 2 + 1) hi with ⟨e'' | right, c₃⟩
          · rw [hr] at h
            exact absurd h (by simp)
          · rw [hr] at h
            obtain ⟨hs, -⟩ := Prod.mk.inj h
            rw [← Except.ok.inj hs, ih c₁ _ _ hcl left c₂ hl, ih c₂ _ _ hcl' right c₃ hr]
            have := hlt.1
            exact chainEvents_append (by omega) (by omega)
      · exact absurd h (by simp)
    · rw [hq] at h
      obtain ⟨hs, -⟩ := Prod.mk.inj h
      rw [← Except.ok.inj hs]
      exact hH.query_exact c hc _ _ _ _ hq

/-- The windows after the first one: some of the remaining gap, all of it unless a window failed. -/
theorem chunkLoop_exact (hH : NonReorganising chain H) {hi chunk : Nat}
    (hmax : hi < u64Max) : ∀ (fuel : Nat) (c : τ) (nextFrom : Nat), H c → 0 < nextFrom →
      nextFrom ≤ hi + 1 → hi + 1 - nextFrom ≤ fuel → ∃ hi' ≤ hi, nextFrom ≤ hi' + 1 ∧
        (chunkLoop (P := BlockPosition) fuel c nextFrom hi chunk).1.1
          = chainEvents chain nextFrom hi' ∧
        ((chunkLoop (P := BlockPosition) (E := E) fuel c nextFrom hi chunk).1.2 = .poisoned ∨
          (chunkLoop (P := BlockPosition) (E := E) fuel c nextFrom hi chunk).1.2 = .exhausted ∧
            hi' = hi) := by
  intro fuel
  induction fuel with
  | zero =>
    intro c nextFrom _ _ hle hfuel
    have hgt : ¬ nextFrom ≤ hi := by omega
    refine ⟨hi, Nat.le_refl _, hle, ?_, Or.inr ⟨?_, rfl⟩⟩
    · rw [chainEvents_of_lt (by omega)]
      simp [chunkLoop]
    · simp [chunkLoop, hgt]
  | succ fuel ih =>
    intro c nextFrom hc hpos hle hfuel
    unfold chunkLoop
    by_cases hgap : nextFrom ≤ hi
    · obtain ⟨hlo, hhi⟩ := windowEnd_bounds chunk hgap hmax
      set nextTo := windowEnd nextFrom hi chunk with hnt
      simp only [hgap, if_true]
      have hcl := queryRangeSplitAux_closed hH (nextTo - nextFrom) c nextFrom nextTo hc
      rcases hq :
        queryRangeSplit (P := BlockPosition) (E := E) c nextFrom nextTo with ⟨e | window, c'⟩
      · -- a slice that is refused ends the walk before it
        refine ⟨nextFrom - 1, by omega, by omega, ?_, Or.inl rfl⟩
        rw [chainEvents_of_lt (by omega)]
      · have hw := queryRangeSplitAux_exact hH _ c nextFrom nextTo hc window c' hq
        have hsat : saturatingAdd u64Max nextTo 1 = nextTo + 1 := saturatingAdd_of_le (by omega)
        simp only [hsat]
        rw [queryRangeSplit] at hq
        rw [hq] at hcl
        obtain ⟨hi', hhi', hle', hs, hend⟩ :=
          ih c' (nextTo + 1) hcl (by omega) (by omega) (by omega)
        refine ⟨hi', hhi', by omega, ?_, hend⟩
        rw [hs, hw]
        exact chainEvents_append (by omega) (by omega)
    · simp only [hgap, if_false]
      refine ⟨hi, Nat.le_refl _, hle, ?_, Or.inr ⟨trivial, rfl⟩⟩
      rw [chainEvents_of_lt (by omega)]

/-- The backfill segment of a gap below `u64::MAX`. -/
theorem backfillSegment_exact (hH : NonReorganising chain H) {c : τ} (hc : H c) {lo hi chunk : Nat}
    (hmax : hi < u64Max) {backfill : List (BlockPosition × E)} {outcome : ChunkEnd}
    {c' : τ} (h : backfillSegment c lo hi chunk = (.ok (backfill, outcome), c')) :
    ∃ hi' ≤ hi, backfill = chainEvents chain lo hi' ∧
      (outcome = .poisoned ∨ outcome = .exhausted ∧ hi' = hi) := by
  unfold backfillSegment at h
  split at h
  · rename_i hlt
    obtain ⟨hr, -⟩ := Prod.mk.inj h
    obtain ⟨rfl, rfl⟩ := Prod.mk.inj (Except.ok.inj hr)
    exact ⟨hi, Nat.le_refl _, (chainEvents_of_lt hlt).symm, Or.inr ⟨rfl, rfl⟩⟩
  · rename_i hle
    obtain ⟨hlo, hhi⟩ := windowEnd_bounds chunk (Nat.le_of_not_lt hle) hmax
    simp only [chunkedQuery] at h
    generalize windowEnd lo hi chunk = firstTo at h hlo hhi
    have hcl := queryRangeSplitAux_closed hH (firstTo - lo) c lo firstTo hc
    rcases hq : queryRangeSplit (P := BlockPosition) (E := E) c lo firstTo with ⟨e | first, c₁⟩
    · rw [hq] at h
      exact absurd h (by simp)
    · have hw := queryRangeSplitAux_exact hH _ c lo firstTo hc first c₁ hq
      rw [hq] at h
      have hsat : saturatingAdd u64Max firstTo 1 = firstTo + 1 := saturatingAdd_of_le (by omega)
      simp only [hsat] at h
      rw [queryRangeSplit] at hq
      rw [hq] at hcl
      obtain ⟨hi', hhi', hle', hs, hend⟩ := chunkLoop_exact hH hmax (hi - firstTo) c₁ (firstTo + 1)
        hcl (by omega) (by omega) (by omega)
      obtain ⟨hr, -⟩ := Prod.mk.inj h
      obtain ⟨rfl, rfl⟩ := Prod.mk.inj (Except.ok.inj hr)
      refine ⟨hi', hhi', ?_, hend⟩
      rw [hs, hw]
      exact chainEvents_append (by omega) (by omega)

/-! ### Sources that always answer -/

theorem queryRangeSplit_answers (hA : Answers E H) {c : τ} (hc : H c) (lo hi : Nat) :
    ∃ stream c', queryRangeSplit (P := BlockPosition) (E := E) c lo hi = (.ok stream, c') := by
  obtain ⟨stream, c', hq⟩ := hA c hc ⟨lo⟩ ⟨hi⟩
  refine ⟨stream, c', ?_⟩
  unfold queryRangeSplit
  rcases hi - lo with _ | fuel <;> simp only [queryRangeSplitAux, BlockPosition.fromSortKey_eq, hq]

theorem chunkLoop_answers (hH : NonReorganising chain H) (hA : Answers E H) {hi chunk : Nat} :
    ∀ (fuel : Nat) (c : τ) (nextFrom : Nat), H c →
      (chunkLoop (P := BlockPosition) (E := E) fuel c nextFrom hi chunk).1.2 ≠ .poisoned := by
  intro fuel
  induction fuel with
  | zero =>
    intro c nextFrom _
    unfold chunkLoop
    split <;> simp
  | succ fuel ih =>
    intro c nextFrom hc
    unfold chunkLoop
    split
    · obtain ⟨window, c', hq⟩ :=
        queryRangeSplit_answers hA hc nextFrom (windowEnd nextFrom hi chunk)
      have hcl := queryRangeSplitAux_closed hH (windowEnd nextFrom hi chunk - nextFrom) c nextFrom
        (windowEnd nextFrom hi chunk) hc
      rw [← queryRangeSplit, hq] at hcl
      simp only [hq]
      exact ih c' _ hcl
    · simp

/-- A gap below `u64::MAX` is then backfilled completely. -/
theorem backfillSegment_answers (hH : NonReorganising chain H) (hA : Answers E H) {c : τ} (hc : H c)
    {lo hi chunk : Nat} (hmax : hi < u64Max) {backfill : List (BlockPosition × E)}
    {outcome : ChunkEnd} {c' : τ}
    (h : backfillSegment c lo hi chunk = (.ok (backfill, outcome), c')) :
    outcome = .exhausted ∧ backfill = chainEvents chain lo hi := by
  obtain ⟨hi', -, hback, hend⟩ := backfillSegment_exact hH hc hmax h
  rcases hend with rfl | ⟨rfl, rfl⟩
  · exfalso
    unfold backfillSegment at h
    split at h
    · exact absurd (Prod.mk.inj (Except.ok.inj (Prod.mk.inj h).1)).2 (by simp)
    · obtain ⟨first, c₁, hq⟩ := queryRangeSplit_answers hA hc lo (windowEnd lo hi chunk)
      have hcl := queryRangeSplitAux_closed hH (windowEnd lo hi chunk - lo) c lo
        (windowEnd lo hi chunk) hc
      rw [← queryRangeSplit, hq] at hcl
      simp only [chunkedQuery, hq] at h
      exact chunkLoop_answers hH hA _ c₁ _ hcl
        (Prod.mk.inj (Except.ok.inj (Prod.mk.inj h).1)).2
  · exact ⟨rfl, hback⟩

end ArtemisLight
