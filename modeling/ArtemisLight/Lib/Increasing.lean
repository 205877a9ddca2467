import Mathlib.Data.List.Perm.Basic

/-!
# Lists with increasing keys

A list whose keys strictly increase is determined by its members, and cutting it at a key splits it
in two.
-/

namespace ArtemisLight

variable {α : Type*}

/-- Two strictly increasing lists of numbers with the same members are equal. -/
theorem eq_of_increasing {l l' : List Nat} (h : l.Pairwise (· < ·)) (h' : l'.Pairwise (· < ·))
    (hmem : ∀ k, k ∈ l ↔ k ∈ l') : l = l' := by
  have hnodup : l.Nodup := h.imp fun hlt => Nat.ne_of_lt hlt
  have hnodup' : l'.Nodup := h'.imp fun hlt => Nat.ne_of_lt hlt
  apply List.Perm.eq_of_pairwise _ h h' ((List.perm_ext_iff_of_nodup hnodup hnodup').mpr hmem)
  intro a b _ _ hab hba
  exact absurd hba (Nat.lt_asymm hab)

variable {key : α → Nat} {l : List α}

/-- Nothing is at or below a key that the first entry exceeds. -/
theorem filter_le_eq_nil {x : α} (h : (x :: l).Pairwise fun x y => key x ≤ key y) {a : Nat}
    (hlt : a < key x) : (x :: l).filter (fun x => decide (key x ≤ a)) = [] := by
  rw [List.filter_eq_nil_iff]
  intro y hy
  rw [decide_eq_true_eq]
  rcases List.mem_cons.mp hy with rfl | hy
  · omega
  · have := (List.pairwise_cons.mp h).1 y hy
    omega

/-- The entries up to a higher key are those up to a lower one and then those in between. -/
theorem filter_le_append (h : l.Pairwise fun x y => key x ≤ key y) {a b : Nat} (hab : a ≤ b) :
    l.filter (fun x => decide (key x ≤ b))
      = l.filter (fun x => decide (key x ≤ a))
        ++ l.filter (fun x => decide (a < key x ∧ key x ≤ b)) := by
  induction l with
  | nil => rfl
  | cons x l ih =>
    obtain ⟨hx, hl⟩ := List.pairwise_cons.mp h
    rcases Nat.lt_or_ge a (key x) with hlt | hle
    · -- nothing is at or below the lower key from here on
      rw [filter_le_eq_nil h hlt, List.nil_append]
      apply List.filter_congr
      intro y hy
      have hgt : a < key y := by
        rcases List.mem_cons.mp hy with rfl | hy
        · exact hlt
        · have := hx y hy
          omega
      simp only [hgt, true_and]
    · have hle' : key x ≤ b := Nat.le_trans hle hab
      have hnlt : ¬ (a < key x ∧ key x ≤ b) := fun h => absurd h.1 (by omega)
      simp only [List.filter_cons, decide_eq_true hle, decide_eq_true hle', decide_eq_false hnlt,
        if_true, Bool.false_eq_true, if_false, List.cons_append, ih hl]

/-- The entries up to a key are a prefix. -/
theorem filter_le_isPrefix (h : l.Pairwise fun x y => key x ≤ key y) (a : Nat) :
    l.filter (fun x => decide (key x ≤ a)) <+: l := by
  induction l with
  | nil => exact List.nil_prefix
  | cons x l ih =>
    obtain ⟨hx, hl⟩ := List.pairwise_cons.mp h
    rcases Nat.lt_or_ge a (key x) with hlt | hle
    · rw [filter_le_eq_nil h hlt]
      exact List.nil_prefix
    · rw [List.filter_cons, if_pos (decide_eq_true hle), List.prefix_cons_inj]
      exact ih hl

end ArtemisLight
