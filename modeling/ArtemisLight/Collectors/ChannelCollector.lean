import ArtemisLight.ExecutorExt.Stack

/-!
# The channel collector

A collector over an in-process channel.  Over the channel of a report it closes the loop: the
verdicts of an executor come back as events.  `Feedback` is that loop, in which the executor and the
collector take their steps in any order.
-/

namespace ArtemisLight

namespace ChannelCollector

variable {C : Channel} {α : Type}

/-- Every subscription has a receiver of its own. -/
def subscribe (sender : C.Of α) : C.Receiver := C.subscribe sender

/-- What the stream yields next, if anything is there.  A lag is logged and skipped. -/
def next (sender : C.Of α) (stream : C.Receiver) : Option (α × C.Receiver) :=
  match C.recv sender stream with
  | none => none
  | some (.item item, stream) => some (item, stream)
  | some (.lagged _, stream) =>
    -- the oldest message that is kept is there
    match C.recv sender stream with
    | some (.item item, stream) => some (item, stream)
    | _ => none

end ChannelCollector

/-- An executor that reports its verdicts, and the stream of a collector over their channel. -/
structure Feedback (C : Channel) (τ A : Type) where
  report : Report C τ A
  stream : C.Receiver

namespace Feedback

/-- What one of the two does next. -/
inductive Act (A : Type) where
  | execute (clock : Clock) (action : A)
  | next
  /-- The driver of the collector subscribes again. -/
  | subscribe

/-- What is seen of it. -/
inductive Happening (A : Type) where
  /-- `execute` has returned. -/
  | executed (action : A) (verdict : Except Error Unit)
  | event (outcome : ExecutionOutcome A)

variable {C : Channel} {τ A : Type} [TimedExecutor τ A]

def start (executor : τ) (capacity : Nat) : Feedback C τ A :=
  let channel : C.Of (ExecutionOutcome A) := C.new capacity
  ⟨⟨executor, channel⟩, ChannelCollector.subscribe channel⟩

def step (feedback : Feedback C τ A) : Act A → List (Happening A) × Feedback C τ A
  | .execute clock action =>
    let (verdict, report, _) := feedback.report.execute clock action
    ([.executed action verdict], { feedback with report })
  | .next =>
    match ChannelCollector.next feedback.report.outcomes feedback.stream with
    | some (outcome, stream) => ([.event outcome], { feedback with stream })
    | none => ([], feedback)
  | .subscribe =>
    ([], { feedback with stream := ChannelCollector.subscribe feedback.report.outcomes })

def run (feedback : Feedback C τ A) : List (Act A) → List (Happening A) × Feedback C τ A
  | [] => ([], feedback)
  | act :: acts =>
    let (h, feedback) := feedback.step act
    let (hs, feedback) := feedback.run acts
    (h ++ hs, feedback)

end Feedback

end ArtemisLight
