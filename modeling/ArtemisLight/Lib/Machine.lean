import Mathlib.Algebra.Group.Nat.Defs

/-!
# Machine integers as natural numbers

Unsigned machine integers are modelled by `Nat`; the operations whose result depends on the width
take the largest representable value as an argument.  A saturating subtraction is `Nat`'s own.
-/

namespace ArtemisLight

/-- `u32::MAX`. -/
def u32Max : Nat := 2 ^ 32 - 1

/-- `u64::MAX`. -/
def u64Max : Nat := 2 ^ 64 - 1

/-- `u128::MAX`. -/
def u128Max : Nat := 2 ^ 128 - 1

/-- `i64::MAX`. -/
def i64Max : Nat := 2 ^ 63 - 1

/-- A `NonZeroU32`. -/
structure NonZeroU32 where
  get : Nat
  pos : 0 < get
  fits : get ≤ u32Max

/-- `a.saturating_add(b)` in an unsigned type whose largest value is `M`. -/
def saturatingAdd (M a b : Nat) : Nat := min (a + b) M

/-- `a.checked_sub(b)`. -/
def checkedSub (a b : Nat) : Option Nat := if b ≤ a then some (a - b) else none

/-- `a.checked_mul(b)` in an unsigned type whose largest value is `M`. -/
def checkedMul (M a b : Nat) : Option Nat := if a * b ≤ M then some (a * b) else none

theorem saturatingAdd_of_le {M a b : Nat} (h : a + b ≤ M) : saturatingAdd M a b = a + b :=
  Nat.min_eq_left h

theorem saturatingAdd_le (M a b : Nat) : saturatingAdd M a b ≤ M := Nat.min_le_right _ _

theorem checkedSub_eq_some {a b c : Nat} : checkedSub a b = some c ↔ b ≤ a ∧ c = a - b := by
  unfold checkedSub
  split <;> simp only [Option.some.injEq, reduceCtorEq, false_iff] <;> omega

theorem checkedSub_eq_none {a b : Nat} : checkedSub a b = none ↔ a < b := by
  unfold checkedSub
  split <;> simp only [reduceCtorEq, false_iff, true_iff] <;> omega

end ArtemisLight
