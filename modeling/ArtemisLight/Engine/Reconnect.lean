import ArtemisLight.Lib.Machine

/-!
# The reconnect policy

A pure state machine that decides, on a collector's lost or failed stream, whether to retry after a
backoff or to declare the collector unrecoverable.
-/

namespace ArtemisLight

/-- A `std::time::Duration`, in nanoseconds. -/
abbrev Duration := Nat

/-- `Duration::MAX`. -/
def durationMax : Duration := u64Max * 1000000000 + 999999999

/-! ### Backoff -/

/-- An exponential backoff curve. -/
structure Backoff where
  base : Duration

/-- The delay for an attempt: the exponent saturates at `u32::MAX`, the product at
`Duration::MAX`. -/
def Backoff.delay (backoff : Backoff) (attempt : Nat) : Duration :=
  let factor := if 2 ^ attempt ≤ u32Max then 2 ^ attempt else u32Max
  min (backoff.base * factor) durationMax

/-! ### The policy -/

structure ReconnectConfig where
  /-- Consecutive failures that escalate the collector. -/
  maxFailures : Nat
  /-- Base unit of the backoff. -/
  baseDelay : Duration
  /-- How long a stream must have stayed open for its end to be healthy. -/
  healthyUptime : Duration
  maxFailures_le : maxFailures ≤ u32Max
  baseDelay_le : baseDelay ≤ durationMax
  deriving DecidableEq

/-- What to do after a stream is lost or fails to open. -/
inductive Decision where
  /-- Recreate the stream after waiting. -/
  | retry (after : Duration)
  /-- The collector is unrecoverable. -/
  | fatal
  deriving DecidableEq

structure ReconnectPolicy where
  config : ReconnectConfig
  /-- Consecutive failures; a `u32`. -/
  failures : Nat
  deriving DecidableEq

namespace ReconnectPolicy

def new (config : ReconnectConfig) : ReconnectPolicy := ⟨config, 0⟩

/-- The delay at the current failure count. -/
def backoff (policy : ReconnectPolicy) : Duration :=
  (Backoff.mk policy.config.baseDelay).delay policy.failures

/-- The collector delivered an event. -/
def onEventsReceived (policy : ReconnectPolicy) : ReconnectPolicy := { policy with failures := 0 }

/-- One more failure; the addition wraps. -/
def recordFailure (policy : ReconnectPolicy) : Decision × ReconnectPolicy :=
  let policy := { policy with failures := (policy.failures + 1) % (u32Max + 1) }
  if policy.config.maxFailures ≤ policy.failures then (.fatal, policy)
  else (.retry policy.backoff, policy)

/-- Stream creation failed. -/
def onCreationFailed (policy : ReconnectPolicy) : Decision × ReconnectPolicy := policy.recordFailure

/-- The stream ended after being open for `uptime`. -/
def onStreamEnded (policy : ReconnectPolicy) (uptime : Duration) : Decision × ReconnectPolicy :=
  if policy.config.healthyUptime ≤ uptime then
    let policy := { policy with failures := 0 }
    (.retry policy.backoff, policy)
  else policy.recordFailure

end ReconnectPolicy

end ArtemisLight
