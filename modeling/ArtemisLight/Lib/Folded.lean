import Mathlib.Order.Bounds.Basic

/-!
# Folds of joins

A fold of a list in a join-semilattice takes its elements one by one, or folds parts of the list
first and joins the results.  Whatever it does, the result is the least upper bound of the elements,
so neither order nor repetition nor grouping matters.
-/

namespace ArtemisLight

variable {α : Type*} [SemilatticeSup α]

/-- `a` is a fold of the elements of `l`. -/
inductive Folded : α → List α → Prop
  | one (a : α) : Folded a [a]
  | join {a b : α} {l m : List α} (ha : Folded a l) (hb : Folded b m) : Folded (a ⊔ b) (l ++ m)

namespace Folded

variable {a b : α} {l m : List α}

/-- Nothing is not folded. -/
theorem ne_nil (h : Folded a l) : l ≠ [] := by
  induction h with
  | one a => exact List.cons_ne_nil a []
  | join _ _ ha _ => exact fun h => ha (List.append_eq_nil_iff.mp h).1

/-- A fold is the least upper bound of what it folds. -/
theorem isLUB (h : Folded a l) : IsLUB {x | x ∈ l} a := by
  induction h with
  | one a =>
    have hset : {x | x ∈ [a]} = {a} := by
      ext x
      exact List.mem_singleton
    rw [hset]
    exact isLUB_singleton
  | @join a b l m _ _ ha hb =>
    have hset : {x | x ∈ l ++ m} = {x | x ∈ l} ∪ {x | x ∈ m} := by
      ext x
      exact List.mem_append
    rw [hset]
    exact ha.union hb

/-- Folds of the same elements agree. -/
theorem unique (ha : Folded a l) (hb : Folded b m) (h : ∀ x, x ∈ l ↔ x ∈ m) : a = b := by
  have hset : {x | x ∈ l} = {x | x ∈ m} := by
    ext x
    exact h x
  have hlub := ha.isLUB
  rw [hset] at hlub
  exact hlub.unique hb.isLUB

end Folded

end ArtemisLight
