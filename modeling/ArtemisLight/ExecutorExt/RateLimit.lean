import ArtemisLight.Lib.Machine
import ArtemisLight.Types

/-!
# The rate limit

A wrapper around an executor that submits at most `perSecond` actions per sliding second.
-/

namespace ArtemisLight

/-- A `tokio::time::Instant`, in nanoseconds. -/
abbrev Instant := Nat

/-- One second. -/
def window : Nat := 1000000000

/-- The wrapped executor and the submission instants within the last second, oldest first. -/
structure RateLimit (τ : Type) where
  executor : τ
  perSecond : NonZeroU32
  sent : List Instant

namespace RateLimit

variable {τ A : Type}

def new (executor : τ) (perSecond : NonZeroU32) : RateLimit τ := ⟨executor, perSecond, []⟩

/-- The instant to sleep until, if the cap is reached.  An index out of bounds gives `none`. -/
def deadline (limit : RateLimit τ) : Option (Option Instant) :=
  if limit.perSecond.get ≤ limit.sent.length then do
    let index ← checkedSub limit.sent.length limit.perSecond.get
    let oldest ← limit.sent[index]?
    return some (oldest + window)
  else some none

/-- Sleep until the cap allows it, and submit.  `clock` says what `Instant::now` returns after the
sleep, if there is one; a panic gives `none`. -/
def execute [Executor τ A] (limit : RateLimit τ) (clock : Option Instant → Instant) (action : A) :
    Option (Except Error Unit × RateLimit τ) := do
  let deadline ← limit.deadline
  let now := clock deadline
  let sent := limit.sent.dropWhile fun t => t + window ≤ now
  let (verdict, executor) := Executor.execute limit.executor action
  return (verdict, { limit with executor := executor, sent := sent ++ [now] })

end RateLimit

end ArtemisLight
