import Mathlib.Data.List.NodupEquivFin

/-!
# Spread lists

A list of instants is spread by `n` and `gap` if any two entries `n` places apart are `gap` apart.
What a sliding window admits is spread, and of a spread list in order no half-open interval as long
as the gap holds more than `n` entries.
-/

namespace ArtemisLight

/-- The entry `n` places after another one is at least `gap` above it. -/
def Spread (n gap : Nat) (l : List Nat) : Prop :=
  ∀ i x y, l[i]? = some x → l[i + n]? = some y → x + gap ≤ y

namespace Spread

variable {n gap : Nat} {l : List Nat}

protected theorem nil : Spread n gap [] := by
  intro i x y hx
  simp at hx

/-- The new entry need only keep away from the one `n` places before it. -/
protected theorem concat (h : Spread n gap l) (hn : 0 < n) {a : Nat}
    (ha : ∀ i x, i + n = l.length → l[i]? = some x → x + gap ≤ a) :
    Spread n gap (l ++ [a]) := by
  intro i x y hx hy
  have hlt : i + n < (l ++ [a]).length := (List.getElem?_eq_some_iff.mp hy).1
  rw [List.length_append, List.length_singleton] at hlt
  rw [List.getElem?_append_left (by omega)] at hx
  rcases Nat.lt_or_ge (i + n) l.length with hin | hin
  · rw [List.getElem?_append_left hin] at hy
    exact h i x y hx hy
  · have hlast : i + n = l.length := by omega
    rw [hlast, List.getElem?_concat_length] at hy
    rw [← Option.some.inj hy]
    exact ha i x hlast hx

/-- The places of a sublist's entries in the list are at least as far apart as in the sublist. -/
theorem add_le_orderEmbedding {α : Type} {l l' : List α} (f : Fin l.length ↪o Fin l'.length)
    {k : Nat}
    (hk : k < l.length) : (f ⟨0, by omega⟩ : Nat) + k ≤ f ⟨k, hk⟩ := by
  induction k with
  | zero => exact Nat.le_refl _
  | succ k ih =>
    have hlt : f ⟨k, by omega⟩ < f ⟨k + 1, hk⟩ := f.strictMono (Nat.lt_succ_self k)
    have hprev := ih (by omega)
    have hval : (f ⟨k, by omega⟩ : Nat) < f ⟨k + 1, hk⟩ := hlt
    omega

/-- No half-open interval of the length of the gap holds more than `n` entries. -/
theorem length_filter_le (h : Spread n gap l) (hsorted : l.Pairwise (· ≤ ·)) (t : Nat) :
    (l.filter fun x => decide (t ≤ x ∧ x < t + gap)).length ≤ n := by
  generalize hkept : (l.filter fun x => decide (t ≤ x ∧ x < t + gap)) = kept
  have hmem : ∀ x ∈ kept, t ≤ x ∧ x < t + gap := by
    intro x hx
    rw [← hkept, List.mem_filter, decide_eq_true_eq] at hx
    exact hx.2
  have hsub : kept.Sublist l := by
    rw [← hkept]
    exact List.filter_sublist
  obtain ⟨f, hf⟩ := List.sublist_iff_exists_fin_orderEmbedding_get_eq.mp hsub
  by_contra hlt
  have hn : n < kept.length := Nat.lt_of_not_le hlt
  -- the first entry kept and the one `n` places after it, where they stand in the list
  have hfirst := hmem _ (List.getElem_mem (show 0 < kept.length by omega))
  have hlast := hmem _ (List.getElem_mem hn)
  have hplaces := add_le_orderEmbedding f hn
  have hfirst' := hf ⟨0, by omega⟩
  have hlast' := hf ⟨n, hn⟩
  simp only [List.get_eq_getElem] at hfirst' hlast'
  rw [hfirst'] at hfirst
  rw [hlast'] at hlast
  have hbound : (f ⟨0, by omega⟩ : Nat) + n < l.length := by
    have := (f ⟨n, hn⟩).isLt
    omega
  have hgap := h (f ⟨0, by omega⟩) l[(f ⟨0, by omega⟩ : Nat)] l[(f ⟨0, by omega⟩ : Nat) + n]
    (List.getElem?_eq_getElem _) (List.getElem?_eq_getElem hbound)
  have hle : l[(f ⟨0, by omega⟩ : Nat) + n] ≤ l[(f ⟨n, hn⟩ : Nat)] := by
    rcases Nat.lt_or_eq_of_le hplaces with hlt | heq
    · exact List.pairwise_iff_getElem.mp hsorted _ _ _ _ hlt
    · simp only [heq, Nat.le_refl]
  omega

end Spread

end ArtemisLight
