import ArtemisLight.Persistence.Equiv.Query
import ArtemisLight.Persistence.Scripted
import Mathlib.Algebra.Order.Floor.Div

/-!
## The end of the slice loop

`chunkWindows` lists the windows that the slice loop queries.  Below `u64::MAX` they tile the gap,
so there are as many as slices fit in it; at `u64::MAX` the saturating step stays where it is and
the loop never ends (`slicesEnd_iff`).
-/

namespace ArtemisLight

section Windows

variable {τ : Type} (P E : Type) [Position P] [PersistableCollector τ P E]

/-- The windows that `chunkLoop` queries, in order. -/
def chunkWindows : Nat → τ → Nat → Nat → Nat → List (Nat × Nat)
  | 0, _, _, _, _ => []
  | fuel + 1, c, nextFrom, hi, chunk =>
    if nextFrom ≤ hi then
      let nextTo := windowEnd nextFrom hi chunk
      (nextFrom, nextTo) :: match queryRangeSplit (P := P) (E := E) c nextFrom nextTo with
        | (.error _, _) => []
        | (.ok _, c) => chunkWindows fuel c (saturatingAdd u64Max nextTo 1) hi chunk
    else []

variable {P E}

/-- Once the first slice is answered, the loop ends after finitely many turns; it has queried at
most one window for each slice that fits in the gap, and none of them twice. -/
def SlicesEnd (P E : Type) [Position P] [PersistableCollector τ P E] (c : τ) (lo hi chunk : Nat) :
    Prop :=
  ∀ (first : List (P × E)) c', queryRangeSplit c lo (windowEnd lo hi chunk) = (.ok first, c') →
    ∃ turns,
      (chunkLoop (P := P) (E := E) turns c' (saturatingAdd u64Max (windowEnd lo hi chunk) 1) hi
        chunk).1.2 ≠ .unfinished ∧
      ((lo, windowEnd lo hi chunk) :: chunkWindows P E turns c'
        (saturatingAdd u64Max (windowEnd lo hi chunk) 1) hi chunk).length
          ≤ (hi - lo + 1) ⌈/⌉ chunk ∧
      ((lo, windowEnd lo hi chunk) :: chunkWindows P E turns c'
        (saturatingAdd u64Max (windowEnd lo hi chunk) 1) hi chunk).Nodup

/-- The collectors in `H` answer every window of the gap, bisected or not. -/
def AnswersWindows (P E : Type) [Position P] [PersistableCollector τ P E] (H : τ → Prop)
    (lo hi : Nat) : Prop :=
  ∀ c, H c → ∀ a b, lo ≤ a → a ≤ b → b ≤ hi →
    ∃ (stream : List (P × E)) (c' : τ), queryRangeSplit c a b = (.ok stream, c') ∧ H c'

variable {H : τ → Prop} {lo hi chunk : Nat}

/-- The slices that fit in a gap, less the first one. -/
theorem ceilDiv_windowEnd (hchunk : 0 < chunk) {start : Nat} (hle : start ≤ hi)
    (hmax : hi < u64Max) :
    (hi - windowEnd start hi chunk) ⌈/⌉ chunk + 1 = (hi + 1 - start) ⌈/⌉ chunk := by
  simp only [Nat.ceilDiv_eq_add_pred_div]
  have hend : windowEnd start hi chunk = min (start + (chunk - 1)) hi := by
    unfold windowEnd saturatingAdd
    omega
  by_cases hlast : start + (chunk - 1) < hi
  · have hsplit : hi + 1 - start + chunk - 1
        = (hi - windowEnd start hi chunk + chunk - 1) + chunk := by omega
    rw [hsplit, Nat.add_div_right _ hchunk]
  · have hzero : hi - windowEnd start hi chunk = 0 := by omega
    have hone : hi + 1 - start + chunk - 1 = (hi - start) + chunk := by omega
    rw [hzero, hone, Nat.add_div_right _ hchunk, Nat.div_eq_of_lt (by omega),
      Nat.div_eq_of_lt (by omega)]

/-- Below `u64::MAX` every turn is one more slice. -/
theorem chunkLoop_ends (hA : AnswersWindows P E H lo hi) (hmax : hi < u64Max) (hchunk : 0 < chunk)
    (fuel : Nat) (c : τ) (start : Nat) (hc : H c) (hlo : lo ≤ start) (hstart : start ≤ hi + 1)
    (hfuel : hi + 1 - start ≤ fuel) :
    (chunkLoop (P := P) (E := E) fuel c start hi chunk).1.2 ≠ .unfinished ∧
      (chunkWindows P E fuel c start hi chunk).length = (hi + 1 - start) ⌈/⌉ chunk ∧
      Tiles start (chunkWindows P E fuel c start hi chunk) (hi + 1) := by
  induction fuel generalizing c start with
  | zero =>
    obtain rfl : start = hi + 1 := by omega
    unfold chunkLoop chunkWindows
    rw [if_neg (by omega), Nat.sub_self]
    exact ⟨by simp, by simp, Tiles.nil _⟩
  | succ fuel ih =>
    unfold chunkLoop chunkWindows
    by_cases hle : start ≤ hi
    · obtain ⟨hge, hend⟩ := windowEnd_bounds chunk hle hmax
      obtain ⟨window, c', hq, hc'⟩ := hA c hc start (windowEnd start hi chunk) hlo hge hend
      obtain ⟨hout, hlen, htiles⟩ := ih c' (windowEnd start hi chunk + 1) hc' (by omega) (by omega)
        (by omega)
      simp only [if_pos hle, hq, saturatingAdd_windowEnd hmax]
      refine ⟨hout, ?_, rfl, hge, htiles⟩
      rw [List.length_cons, hlen, ← ceilDiv_windowEnd hchunk hle hmax,
        Nat.add_sub_add_right]
    · obtain rfl : start = hi + 1 := by omega
      rw [if_neg hle, if_neg hle, Nat.sub_self]
      exact ⟨by simp, by simp, Tiles.nil _⟩

/-- At `u64::MAX` no turn is the last one. -/
theorem chunkLoop_stalls (hA : AnswersWindows P E H lo u64Max) (fuel : Nat) (c : τ) (start : Nat)
    (hc : H c) (hlo : lo ≤ start) (hstart : start ≤ u64Max) :
    (chunkLoop (P := P) (E := E) fuel c start u64Max chunk).1.2 = .unfinished := by
  induction fuel generalizing c start with
  | zero =>
    unfold chunkLoop
    rw [if_pos hstart]
  | succ fuel ih =>
    have hge : start ≤ windowEnd start u64Max chunk := by
      unfold windowEnd saturatingAdd
      omega
    have hend : windowEnd start u64Max chunk ≤ u64Max := Nat.min_le_right _ _
    obtain ⟨window, c', hq, hc'⟩ := hA c hc start _ hlo hge hend
    unfold chunkLoop
    simp only [if_pos hstart, hq]
    apply ih c' _ hc'
    · unfold saturatingAdd
      omega
    · exact saturatingAdd_le _ _ _

/-- With a source that answers every window, the slice loop ends, after at most one query for each
slice of the gap and without repeating one, exactly when the gap ends below `u64::MAX`. -/
theorem slicesEnd_iff (hA : AnswersWindows P E H lo hi) (hle : lo ≤ hi) (hmax : hi ≤ u64Max)
    (hchunk : 0 < chunk) {c : τ} (hc : H c) : SlicesEnd P E c lo hi chunk ↔ hi < u64Max := by
  constructor
  · intro h
    by_contra hnot
    obtain rfl : hi = u64Max := by omega
    have hge : lo ≤ windowEnd lo u64Max chunk := by
      unfold windowEnd saturatingAdd
      omega
    obtain ⟨first, c', hq, hc'⟩ := hA c hc lo (windowEnd lo u64Max chunk) (Nat.le_refl _) hge
      (Nat.min_le_right _ _)
    obtain ⟨turns, hout, -⟩ := h first c' hq
    apply hout
    apply chunkLoop_stalls hA turns c' _ hc'
    · unfold saturatingAdd
      omega
    · exact saturatingAdd_le _ _ _
  · intro hlt first c' hq
    obtain ⟨hge, hend⟩ := windowEnd_bounds chunk hle hlt
    obtain ⟨first', c'', hq', hc'⟩ := hA c hc lo (windowEnd lo hi chunk) (Nat.le_refl _) hge hend
    obtain ⟨-, rfl⟩ := Prod.mk.inj (hq.symm.trans hq')
    obtain ⟨hout, hlen, htiles⟩ := chunkLoop_ends hA hlt hchunk (hi - windowEnd lo hi chunk) c'
      (windowEnd lo hi chunk + 1) hc' (by omega) (by omega) (by omega)
    refine ⟨hi - windowEnd lo hi chunk, ?_⟩
    rw [saturatingAdd_windowEnd hlt]
    refine ⟨hout, ?_, ?_⟩
    · rw [List.length_cons, hlen, Nat.add_sub_add_right, ceilDiv_windowEnd hchunk hle hlt]
      exact Nat.le_of_eq (by congr 1; omega)
    · have hall : Tiles lo ((lo, windowEnd lo hi chunk) :: chunkWindows P E
          (hi - windowEnd lo hi chunk) c' (windowEnd lo hi chunk + 1) hi chunk) (hi + 1) :=
        ⟨rfl, hge, htiles⟩
      exact hall.nodup

end Windows

/-! ### A gap below the limit, and one up to it -/

/-- A source without events that answers every query. -/
def emptyCollector : ScriptedCollector ValueSet := ⟨[], [], u64Max⟩

theorem emptyCollector_answers (lo hi : Nat) :
    AnswersWindows BlockPosition ValueSet (fun _ : ScriptedCollector ValueSet => True) lo hi := by
  intro c _ a b _ _ _
  have hA : Answers ValueSet fun _ : ScriptedCollector ValueSet => True :=
    fun c _ a b => ⟨_, c, rfl⟩
  obtain ⟨stream, c', h⟩ := queryRangeSplit_answers hA (c := c) trivial a b
  exact ⟨stream, c', h, trivial⟩

/-- The slice loop of a gap that ends at `u64::MAX` does not end. -/
theorem slices_stall_at_max :
    ¬ SlicesEnd BlockPosition ValueSet emptyCollector (u64Max - 5) u64Max 2 := by
  intro h
  have hA := emptyCollector_answers (u64Max - 5) u64Max
  have hge : u64Max - 5 ≤ windowEnd (u64Max - 5) u64Max 2 := by decide
  obtain ⟨first, c', hq, -⟩ := hA emptyCollector trivial _ _ (Nat.le_refl _) hge
    (Nat.min_le_right _ _)
  obtain ⟨turns, hout, -⟩ := h first c' hq
  exact hout (chunkLoop_stalls hA turns c' _ trivial (by decide) (by decide))

/-- The slices of the gap 0 to 5 end. -/
theorem slices_end_below_max : SlicesEnd BlockPosition ValueSet emptyCollector 0 5 2 :=
  (slicesEnd_iff (emptyCollector_answers 0 5) (by decide) (by decide) (by decide) trivial).mpr
    (by decide)

end ArtemisLight
