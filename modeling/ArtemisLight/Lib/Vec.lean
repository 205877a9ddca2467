import Mathlib.Data.List.Perm.Basic

/-!
# Vectors as lists

`swapRemove` is the vector removal that fills the hole with the last element.  As far as membership
and multiplicities go it removes one element, which is all `swapRemove_perm_erase` says.  `chunks`
cuts a slice into pieces.
-/

namespace ArtemisLight

variable {α : Type*}

/-- `vec.swap_remove(i)`: the element at `i` is replaced by the last one, which is dropped. -/
def swapRemove (l : List α) (i : Nat) : List α :=
  match l.getLast? with
  | none => []
  | some last => (l.set i last).dropLast

theorem swapRemove_perm_eraseIdx {l : List α} {i : Nat} (h : i < l.length) :
    (swapRemove l i).Perm (l.eraseIdx i) := by
  rcases List.eq_nil_or_concat l with rfl | ⟨l', x, rfl⟩
  · simp at h
  · rw [List.concat_eq_append] at h ⊢
    have hlast : swapRemove (l' ++ [x]) i = ((l' ++ [x]).set i x).dropLast := by
      simp [swapRemove]
    rw [hlast]
    rcases Nat.lt_or_ge i l'.length with hi | hi
    · rw [List.set_append_left _ _ hi, List.dropLast_concat, List.eraseIdx_append_of_lt_length hi,
        List.set_eq_take_append_cons_drop, if_pos hi, List.eraseIdx_eq_take_drop_succ]
      rw [List.append_assoc]
      exact List.Perm.append_left _ (List.perm_append_singleton _ _).symm
    · have hi' : i = l'.length := by
        rw [List.length_append, List.length_singleton] at h; omega
      subst hi'
      simp [List.set_append_right, List.eraseIdx_append_of_length_le]

/-- `slice.chunks(n)`: consecutive pieces of `n` elements, the last one possibly shorter. -/
def chunks (n : Nat) (l : List α) : List (List α) := go l.length l
where
  /-- `fuel` bounds the number of pieces. -/
  go : Nat → List α → List (List α)
    | 0, _ => []
    | _ + 1, [] => []
    | fuel + 1, a :: l => (a :: l).take n :: go fuel ((a :: l).drop n)

/-- The pieces are the slice. -/
theorem flatten_chunks {n : Nat} (hn : 0 < n) (l : List α) : (chunks n l).flatten = l := by
  have hgo : ∀ (fuel : Nat) (l : List α), l.length ≤ fuel → (chunks.go n fuel l).flatten = l := by
    intro fuel
    induction fuel with
    | zero =>
      intro l hl
      rw [List.length_eq_zero_iff.mp (Nat.le_zero.mp hl)]
      rfl
    | succ fuel ih =>
      intro l hl
      cases l with
      | nil => rfl
      | cons a l =>
        show (a :: l).take n ++ (chunks.go n fuel ((a :: l).drop n)).flatten = a :: l
        rw [ih _ (by rw [List.length_drop]; omega), List.take_append_drop]
  exact hgo _ l (Nat.le_refl _)

/-- No piece is empty or longer than `n`. -/
theorem length_of_mem_chunks {n : Nat} (hn : 0 < n) (l : List α) :
    ∀ piece ∈ chunks n l, piece ≠ [] ∧ piece.length ≤ n := by
  have hgo : ∀ (fuel : Nat) (l : List α), ∀ piece ∈ chunks.go n fuel l,
      piece ≠ [] ∧ piece.length ≤ n := by
    intro fuel
    induction fuel with
    | zero => exact fun l piece h => nomatch h
    | succ fuel ih =>
      intro l
      cases l with
      | nil => exact fun piece h => nomatch h
      | cons a l =>
        refine List.forall_mem_cons.mpr ⟨⟨?_, List.length_take_le _ _⟩, ih _⟩
        rw [ne_eq, List.take_eq_nil_iff]
        rintro (rfl | h)
        · exact Nat.lt_irrefl _ hn
        · exact nomatch h
  exact hgo _ l

variable [DecidableEq α]

/-- Removing the first occurrence of an element by `swapRemove` is, up to order, erasing it. -/
theorem swapRemove_perm_erase {l : List α} {x : α} (h : x ∈ l) :
    (swapRemove l (l.idxOf x)).Perm (l.erase x) := by
  rw [← List.eraseIdx_idxOf_eq_erase]
  exact swapRemove_perm_eraseIdx (List.idxOf_lt_length_of_mem h)

end ArtemisLight
