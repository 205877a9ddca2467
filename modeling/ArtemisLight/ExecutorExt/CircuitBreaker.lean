import ArtemisLight.Lib.Machine
import ArtemisLight.Types

/-!
# The circuit breaker

A wrapper around an executor that stops submitting after `maxFailures` failures in a row, until an
operator resets it.  The failure counter is shared with the operators' handles, so `execute` is cut
at its await: what comes before it and what comes after it are separate steps.
-/

namespace ArtemisLight

/-- What a breaker shares with its handles. -/
structure BreakerState where
  maxFailures : NonZeroU32
  /-- An `AtomicU32`. -/
  failures : Nat

namespace BreakerState

def isOpen (state : BreakerState) : Bool := state.maxFailures.get ≤ state.failures

/-- `failures.store(0)`, by a success or by `CircuitBreakerHandle::reset`. -/
def reset (state : BreakerState) : BreakerState := { state with failures := 0 }

/-- `failures.fetch_add(1)`, which wraps. -/
def fetchAdd (state : BreakerState) : BreakerState :=
  { state with failures := (state.failures + 1) % (u32Max + 1) }

end BreakerState

/-- The wrapped executor and the shared state. -/
structure CircuitBreaker (τ : Type) where
  executor : τ
  state : BreakerState

namespace CircuitBreaker

variable {τ A : Type}

def new (executor : τ) (maxFailures : NonZeroU32) : CircuitBreaker τ := ⟨executor, maxFailures, 0⟩

/-- `execute` up to its await: an open circuit rejects the action, a closed one hands it to the
executor. -/
def submit [Executor τ A] (breaker : CircuitBreaker τ) (action : A) :
    Except Error (Except Error Unit × CircuitBreaker τ) :=
  if breaker.state.isOpen then
    .error (s!"circuit breaker open after {breaker.state.maxFailures.get} consecutive failures; "
      ++ "action rejected until reset")
  else
    let (verdict, executor) := Executor.execute breaker.executor action
    .ok (verdict, { breaker with executor := executor })

/-- `execute` from its await on: the executor's verdict is counted and returned. -/
def settle (breaker : CircuitBreaker τ) (verdict : Except Error Unit) :
    Except Error Unit × CircuitBreaker τ :=
  match verdict with
  | .ok () => (.ok (), { breaker with state := breaker.state.reset })
  | .error error => (.error error, { breaker with state := breaker.state.fetchAdd })

end CircuitBreaker

end ArtemisLight
