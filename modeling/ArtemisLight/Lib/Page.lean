import Mathlib.Data.List.Basic

/-!
# Pages of a growing list

`page limit offset l` is what `LIMIT` and `OFFSET` leave of `l`.  A full page stays the same while
the list grows at its end, so pages read one after the other, from longer and longer lists, are the
last of these lists.
-/

namespace ArtemisLight

variable {α : Type*} {l l' : List α} {limit offset : Nat}

/-- The entries from `offset` on, at most `limit` of them. -/
def page (limit offset : Nat) (l : List α) : List α := (l.drop offset).take limit

/-- A short page is everything from the offset on. -/
theorem page_eq_drop (h : (page limit offset l).length < limit) :
    page limit offset l = l.drop offset := by
  unfold page at *
  rw [List.length_take] at h
  exact List.take_of_length_le (by omega)

/-- A full page is followed, in any list that goes on from `l`, by what comes after it. -/
theorem page_append_drop (h : ¬ (page limit offset l).length < limit) (hl : l <+: l') :
    page limit offset l ++ l'.drop (offset + limit) = l'.drop offset := by
  obtain ⟨t, rfl⟩ := hl
  have hfull : limit ≤ (l.drop offset).length := by
    unfold page at h
    rw [List.length_take] at h
    omega
  have hpage : page limit offset l = page limit offset (l ++ t) := by
    unfold page
    rw [List.drop_append, List.take_append_of_le_length hfull]
  rw [hpage, ← List.drop_drop]
  exact List.take_append_drop limit _

end ArtemisLight
