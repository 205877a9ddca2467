import ArtemisLight.Engine.Reconnect

/-!
# The collector driver

The loop that runs one collector: it subscribes, pumps the events of the stream into the engine's
channel, and consults the reconnect policy when the stream fails to open or ends.  The loop is cut
at its awaits: `Signal` is what an await resolves to, `Effect` what the driver does until the next
one.  The uptime of a stream comes with its end; log lines are left out.
-/

namespace ArtemisLight

/-- The tokens that a driver cancels. -/
inductive Token where
  | fatal
  | root
  deriving DecidableEq

namespace Driver

/-- Where the driver awaits.  At each of them the child token is awaited too. -/
inductive Await where
  /-- `collector.subscribe()` -/
  | subscribe
  /-- `stream.next()` -/
  | next
  /-- `tokio::time::sleep(after)` -/
  | sleep
  deriving DecidableEq

/-- What an await resolves to. -/
inductive Signal (E : Type) where
  /-- The child token is cancelled. -/
  | cancelled
  | subscribed
  | subscribeFailed
  | delivered (event : E)
  /-- The stream ended; it was open for `uptime`. -/
  | ended (uptime : Duration)
  | slept
  deriving DecidableEq

/-- What the driver does. -/
inductive Effect (E : Type) where
  | send (event : E)
  /-- Start to sleep. -/
  | sleep (after : Duration)
  | cancel (token : Token)
  | exit
  deriving DecidableEq

end Driver

/-- The policy, and where the driver awaits, unless it has returned. -/
structure Driver where
  policy : ReconnectPolicy
  awaiting : Option Driver.Await
  deriving DecidableEq

namespace Driver

variable {E : Type}

def new (config : ReconnectConfig) : Driver := ⟨ReconnectPolicy.new config, some .subscribe⟩

/-- Cancel the fatal token, then the root token. -/
def escalate : List (Effect E) := [.cancel .fatal, .cancel .root]

/-- Sleep for a retry, or escalate and return. -/
def obey (decision : Decision × ReconnectPolicy) : List (Effect E) × Driver :=
  match decision.1 with
  | .retry after => ([.sleep after], ⟨decision.2, some .sleep⟩)
  | .fatal => (escalate ++ [.exit], ⟨decision.2, none⟩)

/-- The driver from one await to the next.  A signal that the await does not give is `none`. -/
def resume (driver : Driver) (signal : Signal E) : Option (List (Effect E) × Driver) :=
  match driver.awaiting, signal with
  | some _, .cancelled => some ([.exit], { driver with awaiting := none })
  | some .subscribe, .subscribed => some ([], { driver with awaiting := some .next })
  | some .subscribe, .subscribeFailed => some (obey driver.policy.onCreationFailed)
  | some .next, .delivered event =>
    some ([.send event], { driver with policy := driver.policy.onEventsReceived })
  | some .next, .ended uptime => some (obey (driver.policy.onStreamEnded uptime))
  | some .sleep, .slept => some ([], { driver with awaiting := some .subscribe })
  | _, _ => none

end Driver

end ArtemisLight
