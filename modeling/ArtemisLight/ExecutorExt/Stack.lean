import ArtemisLight.Engine.Reconnect
import ArtemisLight.ExecutorExt.RateLimit
import ArtemisLight.Lib.Calls
import ArtemisLight.Lib.Channel

/-!
# The layers of an executor

The wrappers around an executor, each of which is an executor again.  Here `execute` takes the clock
along, so that a layer can be followed through the awaits of the ones inside it.
-/

namespace ArtemisLight

/-- An executor of actions `A` that takes its time. -/
abbrev TimedExecutor (τ A : Type) := Timed τ A (Except Error Unit)

/-! ### Retries -/

/-- How many times to submit again, and how fast the backoff grows. -/
structure RetryPolicy where
  /-- Submissions after the first one; a `u32`. -/
  maxRetries : Nat
  baseDelay : Duration
  maxRetries_le : maxRetries ≤ u32Max

structure Retry (τ : Type) where
  executor : τ
  policy : RetryPolicy

namespace Retry

variable {τ A : Type} [TimedExecutor τ A]

/-- The loop, with `left` retries left after the first `retries` ones. -/
def loop (policy : RetryPolicy) (action : A) :
    (left retries : Nat) → τ → Clock → Except Error Unit × τ × Clock
  | 0, _, executor, clock => Timed.call executor clock action
  | left + 1, retries, executor, clock =>
    match Timed.call executor clock action with
    | (.ok (), executor, clock) => (.ok (), executor, clock)
    | (.error _, executor, clock) =>
      let delay := (Backoff.mk policy.baseDelay).delay retries
      loop policy action left (retries + 1) executor (clock.sleep delay)

/-- Submit until the executor accepts the action or the retries are exhausted. -/
def execute (retry : Retry τ) (clock : Clock) (action : A) :
    Except Error Unit × Retry τ × Clock :=
  let (verdict, executor, clock) :=
    loop retry.policy action retry.policy.maxRetries 0 retry.executor clock
  (verdict, { retry with executor }, clock)

end Retry

/-! ### Deadlines -/

/-- An action that knows when it goes stale. -/
class Expires (A : Type) where
  expiresAt : A → Instant

structure Deadline (τ : Type) where
  executor : τ

/-- An expired action is dropped. -/
def Deadline.execute {τ A : Type} [TimedExecutor τ A] [Expires A] (deadline : Deadline τ)
    (clock : Clock) (action : A) : Except Error Unit × Deadline τ × Clock :=
  if Expires.expiresAt action ≤ clock.now then (.ok (), deadline, clock)
  else
    let (verdict, executor, clock) := Timed.call deadline.executor clock action
    (verdict, { executor }, clock)

/-! ### Switches, routes and fallbacks -/

/-- The caller keeps the flag: `enabled` is what it reads at each instant. -/
structure Gated (τ : Type) where
  executor : τ
  enabled : Instant → Bool

/-- While the flag is off, actions are dropped. -/
def Gated.execute {τ A : Type} [TimedExecutor τ A] (gated : Gated τ) (clock : Clock) (action : A) :
    Except Error Unit × Gated τ × Clock :=
  if gated.enabled clock.now then
    let (verdict, executor, clock) := Timed.call gated.executor clock action
    (verdict, { gated with executor }, clock)
  else (.ok (), gated, clock)

/-- `dry_run`: the flag is off for good. -/
def Gated.dryRun {τ : Type} (executor : τ) : Gated τ := ⟨executor, fun _ => false⟩

structure FilterMapAction (τ A A2 : Type) where
  executor : τ
  f : A2 → Option A

/-- Actions that the function does not map are skipped. -/
def FilterMapAction.execute {τ A A2 : Type} [TimedExecutor τ A] (filter : FilterMapAction τ A A2)
    (clock : Clock) (action : A2) : Except Error Unit × FilterMapAction τ A A2 × Clock :=
  match filter.f action with
  | some action =>
    let (verdict, executor, clock) := Timed.call filter.executor clock action
    (verdict, { filter with executor }, clock)
  | none => (.ok (), filter, clock)

structure Fallback (τ σ : Type) where
  primary : τ
  fallback : σ

/-- What the primary executor fails to execute is submitted to the other one. -/
def Fallback.execute {τ σ A : Type} [TimedExecutor τ A] [TimedExecutor σ A]
    (executors : Fallback τ σ) (clock : Clock) (action : A) :
    Except Error Unit × Fallback τ σ × Clock :=
  match Timed.call executors.primary clock action with
  | (.ok (), primary, clock) => (.ok (), { executors with primary }, clock)
  | (.error _, primary, clock) =>
    let (verdict, fallback, clock) := Timed.call executors.fallback clock action
    (verdict, { primary, fallback }, clock)

/-! ### The rate limit in time -/

/-- Sleep until the cap allows a submission. -/
def RateLimit.sleep {τ : Type} (limit : RateLimit τ) (clock : Clock) : Clock :=
  match limit.deadline with
  | some (some t) => clock.sleepUntil t
  | some none => clock
  | none => clock -- a panic, which no limit that starts out empty comes to

/-- Sleep, and submit. -/
def RateLimit.executeAt {τ A : Type} [TimedExecutor τ A] (limit : RateLimit τ) (clock : Clock)
    (action : A) : Except Error Unit × RateLimit τ × Clock :=
  let clock := limit.sleep clock
  let sent := limit.sent.dropWhile fun t => t + window ≤ clock.now
  let (verdict, executor, clock') := Timed.call limit.executor clock action
  (verdict, { limit with executor, sent := sent ++ [clock.now] }, clock')

/-! ### Reports -/

/-- The verdict on an action. -/
structure ExecutionOutcome (A : Type) where
  action : A
  result : Except Error Unit

structure Report (C : Channel) (τ A : Type) where
  executor : τ
  outcomes : C.Of (ExecutionOutcome A)

/-- The verdict on every action is published, and returned as it is. -/
def Report.execute {C : Channel} {τ A : Type} [TimedExecutor τ A] (report : Report C τ A)
    (clock : Clock) (action : A) : Except Error Unit × Report C τ A × Clock :=
  let (result, executor, clock) := Timed.call report.executor clock action
  (result, { executor, outcomes := C.send report.outcomes ⟨action, result⟩ }, clock)

/-! ### Every layer is an executor -/

section Instances

variable {C : Channel} {τ σ A A2 : Type} [TimedExecutor τ A] [TimedExecutor σ A]

theorem Retry.now_le (retry : Retry τ) (clock : Clock) (action : A) :
    clock.now ≤ (retry.execute clock action).2.2.now := by
  have hloop : ∀ left retries (executor : τ) (clock : Clock),
      clock.now ≤ (Retry.loop retry.policy action left retries executor clock).2.2.now := by
    intro left
    induction left with
    | zero => exact fun retries executor clock => Timed.now_le executor clock action
    | succ left ih =>
      intro retries executor clock
      have hcall := Timed.now_le executor clock action
      rw [Retry.loop]
      rcases h : Timed.call executor clock action with ⟨⟨e⟩ | ⟨⟩, executor', clock'⟩
      · rw [h] at hcall
        simp only
        exact Nat.le_trans (Nat.le_trans hcall (Nat.le_of_add_right_le (clock'.le_sleep _)))
          (ih _ _ _)
      · rw [h] at hcall
        exact hcall
  exact hloop _ _ _ _

theorem Deadline.now_le [Expires A] (deadline : Deadline τ) (clock : Clock) (action : A) :
    clock.now ≤ (deadline.execute clock action).2.2.now := by
  unfold Deadline.execute
  split
  · exact Nat.le_refl _
  · exact Timed.now_le deadline.executor clock action

theorem Gated.now_le (gated : Gated τ) (clock : Clock) (action : A) :
    clock.now ≤ (gated.execute clock action).2.2.now := by
  unfold Gated.execute
  split
  · exact Timed.now_le gated.executor clock action
  · exact Nat.le_refl _

theorem FilterMapAction.now_le (filter : FilterMapAction τ A A2) (clock : Clock) (action : A2) :
    clock.now ≤ (filter.execute clock action).2.2.now := by
  unfold FilterMapAction.execute
  split
  · exact Timed.now_le filter.executor clock _
  · exact Nat.le_refl _

theorem Fallback.now_le (executors : Fallback τ σ) (clock : Clock) (action : A) :
    clock.now ≤ (executors.execute clock action).2.2.now := by
  have hprimary := Timed.now_le executors.primary clock action
  unfold Fallback.execute
  split
  · rename_i h
    rwa [h] at hprimary
  · rename_i h
    rw [h] at hprimary
    exact Nat.le_trans hprimary (Timed.now_le executors.fallback _ action)

theorem RateLimit.le_sleep {τ : Type} (limit : RateLimit τ) (clock : Clock) :
    clock.now ≤ (limit.sleep clock).now := by
  unfold RateLimit.sleep
  rcases limit.deadline with _ | (_ | t)
  · exact Nat.le_refl _
  · exact Nat.le_refl _
  · exact (clock.le_sleepUntil t).1

theorem RateLimit.now_le (limit : RateLimit τ) (clock : Clock) (action : A) :
    clock.now ≤ (limit.executeAt clock action).2.2.now :=
  Nat.le_trans (limit.le_sleep clock) (Timed.now_le limit.executor (limit.sleep clock) action)

theorem Report.now_le (report : Report C τ A) (clock : Clock) (action : A) :
    clock.now ≤ (report.execute clock action).2.2.now :=
  Timed.now_le report.executor clock action

instance : TimedExecutor (Retry τ) A := ⟨Retry.execute, Retry.now_le⟩

instance [Expires A] : TimedExecutor (Deadline τ) A := ⟨Deadline.execute, Deadline.now_le⟩

instance : TimedExecutor (Gated τ) A := ⟨Gated.execute, Gated.now_le⟩

instance : TimedExecutor (FilterMapAction τ A A2) A2 :=
  ⟨FilterMapAction.execute, FilterMapAction.now_le⟩

instance : TimedExecutor (Fallback τ σ) A := ⟨Fallback.execute, Fallback.now_le⟩

instance : TimedExecutor (RateLimit τ) A := ⟨RateLimit.executeAt, RateLimit.now_le⟩

instance : TimedExecutor (Report C τ A) A := ⟨Report.execute, Report.now_le⟩

end Instances

end ArtemisLight
