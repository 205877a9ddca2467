import ArtemisLight.Engine.Reconnect
import ArtemisLight.ExecutorExt.RateLimit
import ArtemisLight.Lib.Calls

/-!
# The cooldown

A wrapper around a strategy that suppresses its actions for a while after it fires.  The action
stream of an event is polled by the engine, each poll takes its time, and the engine may stop before
the stream ends.
-/

namespace ArtemisLight

/-- A strategy of events `E` and actions `A` that takes its time. -/
abbrev TimedStrategy (S E A : Type) := Timed S E (Except Error (List A))

structure Cooldown (S : Type) where
  strategy : S
  duration : Duration
  /-- When the strategy last fired. -/
  lastFired : Option Instant

namespace Cooldown

variable {S E A : Type}

def new (strategy : S) (duration : Duration) : Cooldown S := ⟨strategy, duration, none⟩

/-- The strategy has fired within the duration. -/
def cooling (cooldown : Cooldown S) (now : Instant) : Bool :=
  match cooldown.lastFired with
  | none => false
  | some fired => now - fired < cooldown.duration

/-- What the strategy's own stream yields, and whether all of it is suppressed. -/
structure ActionStream (A : Type) where
  actions : List A
  suppressed : Bool

/-- The strategy processes the event in any case. -/
def processEvent [TimedStrategy S E A] (cooldown : Cooldown S) (clock : Clock) (event : E) :
    Except Error (ActionStream A) × Cooldown S × Clock :=
  let suppressed := cooldown.cooling clock.now
  match (Timed.call cooldown.strategy clock event : Except Error (List A) × S × Clock) with
  | (.ok actions, strategy, clock) =>
    (.ok ⟨actions, suppressed⟩, { cooldown with strategy }, clock)
  | (.error e, strategy, clock) => (.error e, { cooldown with strategy }, clock)

/-- The polls of a stream: what passes, and when.  An action that passes starts the cooldown. -/
def drain (suppressed : Bool) : (actions : List A) → Cooldown S → Clock →
    List (Instant × A) × Cooldown S × Clock
  | [], cooldown, clock => ([], cooldown, clock)
  | action :: actions, cooldown, clock =>
    let clock := clock.sleep 0
    if suppressed then drain suppressed actions cooldown clock
    else
      let (passed, cooldown, clock') :=
        drain suppressed actions { cooldown with lastFired := some clock.now } clock
      ((clock.now, action) :: passed, cooldown, clock')

/-- The engine polls the stream of an event at most `polls` times; an error has none. -/
def consume (polls : Nat) (cooldown : Cooldown S) (clock : Clock) :
    Except Error (ActionStream A) → List (Instant × A) × Cooldown S × Clock
  | .ok stream => drain stream.suppressed (stream.actions.take polls) cooldown clock
  | .error _ => ([], cooldown, clock)

end Cooldown

end ArtemisLight
