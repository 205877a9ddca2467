import Mathlib.Data.List.Sort
import Mathlib.Order.Basic

/-!
# What a stable sort leaves in place

Insertion sort keeps a list that is sorted already.  Seen through a function of the entries, it
keeps a list in place exactly then, if the order only depends on what the function shows.
-/

namespace ArtemisLight

variable {α β κ : Type*} {r : α → α → Prop} [DecidableRel r] [Std.Total r] [IsTrans α r]
  {l : List α}

/-- A list that is sorted by a key keeps its keys under a finer order. -/
theorem map_insertionSort_of_sorted [LinearOrder κ] (key : α → κ)
    (hr : ∀ a b, r a b → key a ≤ key b) (hl : l.Pairwise fun a b => key a ≤ key b) :
    (l.insertionSort r).map key = l.map key := by
  apply ((List.perm_insertionSort r l).map key).eq_of_pairwise
  · exact fun a b _ _ => le_antisymm
  · rw [List.pairwise_map]
    exact (List.pairwise_insertionSort r l).imp fun h => hr _ _ h
  · rw [List.pairwise_map]
    exact hl

/-- Sorting leaves the list in place, as far as the order can tell, if and only if it is sorted. -/
theorem map_insertionSort_eq_iff {f : α → β} {s : β → β → Prop}
    (hs : ∀ a b, r a b ↔ s (f a) (f b)) :
    (l.insertionSort r).map f = l.map f ↔ l.Pairwise r := by
  constructor
  · intro h
    have hsorted := (List.pairwise_insertionSort r l).imp fun h => (hs _ _).mp h
    rw [← List.pairwise_map (f := f), h, List.pairwise_map] at hsorted
    exact hsorted.imp fun h => (hs _ _).mpr h
  · intro h
    rw [h.insertionSort_eq]

end ArtemisLight
