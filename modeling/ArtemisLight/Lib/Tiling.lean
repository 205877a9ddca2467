import Mathlib.Tactic.SplitIfs

/-!
# Tilings of an interval

A list of windows `(a, b)`, both ends included, tiles the interval from `lo` up to and without
`next` when each window starts right after the one before it.
-/

namespace ArtemisLight

/-- The windows tile `lo..next`, in order. -/
def Tiles : Nat → List (Nat × Nat) → Nat → Prop
  | lo, [], next => lo = next
  | lo, w :: ws, next => w.1 = lo ∧ lo ≤ w.2 ∧ Tiles (w.2 + 1) ws next

/-- The number of windows that contain `k`. -/
def covering (ws : List (Nat × Nat)) (k : Nat) : Nat :=
  ws.countP fun w => decide (w.1 ≤ k ∧ k ≤ w.2)

variable {lo mid next : Nat} {ws ws' : List (Nat × Nat)}

theorem Tiles.nil (lo : Nat) : Tiles lo [] lo := rfl

theorem Tiles.single {hi : Nat} (h : lo ≤ hi) : Tiles lo [(lo, hi)] (hi + 1) := ⟨rfl, h, rfl⟩

theorem Tiles.append (h : Tiles lo ws mid) (h' : Tiles mid ws' next) :
    Tiles lo (ws ++ ws') next := by
  induction ws generalizing lo with
  | nil =>
    obtain rfl : lo = mid := h
    exact h'
  | cons w ws ih => exact ⟨h.1, h.2.1, ih h.2.2⟩

theorem Tiles.le (h : Tiles lo ws next) : lo ≤ next := by
  induction ws generalizing lo with
  | nil => exact Nat.le_of_eq h
  | cons w ws ih =>
    obtain ⟨-, hle, hrest⟩ := h
    exact Nat.le_trans hle (Nat.le_of_succ_le (ih hrest))

/-- Every window lies inside the interval. -/
theorem Tiles.inside (h : Tiles lo ws next) {w : Nat × Nat} (hw : w ∈ ws) :
    lo ≤ w.1 ∧ w.1 ≤ w.2 ∧ w.2 < next := by
  induction ws generalizing lo with
  | nil => exact absurd hw (by simp)
  | cons v ws ih =>
    obtain ⟨hv, hle, hrest⟩ := h
    rcases List.mem_cons.mp hw with rfl | hw
    · exact ⟨Nat.le_of_eq hv.symm, hv ▸ hle, hrest.le⟩
    · obtain ⟨hlo, hw12, hnext⟩ := ih hrest hw
      exact ⟨by omega, hw12, hnext⟩

/-- Each point of the interval is in one window, and no other point is in any. -/
theorem Tiles.covering_eq (h : Tiles lo ws next) (k : Nat) :
    covering ws k = if lo ≤ k ∧ k < next then 1 else 0 := by
  induction ws generalizing lo with
  | nil =>
    obtain rfl : lo = next := h
    rw [if_neg (by omega)]
    rfl
  | cons w ws ih =>
    obtain ⟨hw, hle, hrest⟩ := h
    have htail := ih hrest
    have hnext := hrest.le
    unfold covering at htail ⊢
    rw [List.countP_cons, htail, hw]
    simp only [decide_eq_true_eq]
    split_ifs <;> omega

/-- No window occurs twice. -/
theorem Tiles.nodup (h : Tiles lo ws next) : ws.Nodup := by
  induction ws generalizing lo with
  | nil => exact List.nodup_nil
  | cons w ws ih =>
    obtain ⟨hw, hle, hrest⟩ := h
    refine List.nodup_cons.mpr ⟨fun hmem => ?_, ih hrest⟩
    have := hrest.inside hmem
    omega

end ArtemisLight
