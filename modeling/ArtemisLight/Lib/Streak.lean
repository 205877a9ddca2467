import Mathlib.Data.List.Basic

/-!
# Streaks

`streak bad reset l` is the number of `bad` entries of a history since its last `reset` entry: what
a counter holds that the first kind of entry increments and the second kind sets to 0.
-/

namespace ArtemisLight

variable {α : Type}

/-- The number of `bad` entries after the last `reset` entry. -/
def streak (bad reset : α → Bool) (l : List α) : Nat :=
  (l.reverse.takeWhile fun a => !reset a).countP bad

section Streak

variable {bad reset : α → Bool} {l : List α} {a : α}

@[simp] theorem streak_nil : streak bad reset [] = 0 := rfl

theorem streak_concat_of_reset (h : reset a = true) : streak bad reset (l ++ [a]) = 0 := by
  simp [streak, h]

theorem streak_concat_of_bad (hreset : reset a = false) (hbad : bad a = true) :
    streak bad reset (l ++ [a]) = streak bad reset l + 1 := by
  simp [streak, hreset, hbad]

theorem streak_concat_of_neither (hreset : reset a = false) (hbad : bad a = false) :
    streak bad reset (l ++ [a]) = streak bad reset l := by
  simp [streak, hreset, hbad]

end Streak

end ArtemisLight
