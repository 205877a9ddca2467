import ArtemisLight.ExecutorExt.CircuitBreaker
import ArtemisLight.Lib.Streak
import ArtemisLight.Lib.Trace

/-!
## The breaker under concurrent resets

`Interleaved` is the history of a breaker: the checks and the verdicts of one `execute` after the
other, with operator resets anywhere between them.  `circuit_breaker_guards`: the counter is the
number of failures since the last success or reset, whatever the interleaving, and it alone decides
what reaches the executor.
-/

namespace ArtemisLight

variable {τ A : Type}

/-! ### Histories -/

/-- One step of a breaker or of an operator. -/
inductive BreakerEvent (A : Type) where
  /-- The check found the circuit open, and `execute` returned this error. -/
  | rejected (action : A) (error : Error)
  /-- The check found the circuit closed, and the executor was invoked. -/
  | invoked (action : A)
  /-- The executor's verdict was counted, and `execute` returned. -/
  | finished (verdict returned : Except Error Unit)
  | reset

namespace BreakerEvent

/-- A recorded failure. -/
def isFailure : BreakerEvent A → Bool
  | .finished (.error _) _ => true
  | .finished (.ok ()) _ => false
  | .rejected _ _ => false
  | .invoked _ => false
  | .reset => false

/-- A success or a reset. -/
def isRecovery : BreakerEvent A → Bool
  | .finished (.ok ()) _ => true
  | .finished (.error _) _ => false
  | .rejected _ _ => false
  | .invoked _ => false
  | .reset => true

end BreakerEvent

/-- The failures recorded since the later of the last success and the last reset. -/
def failuresSinceRecovery (log : List (BreakerEvent A)) : Nat :=
  streak BreakerEvent.isFailure BreakerEvent.isRecovery log

/-- The steps so far, the breaker after them, and the verdict of the execution in flight. -/
inductive Interleaved [Executor τ A] (start : CircuitBreaker τ) :
    List (BreakerEvent A) → CircuitBreaker τ → Option (Except Error Unit) → Prop
  | nil : Interleaved start [] start none
  | rejected {log : List (BreakerEvent A)} {breaker : CircuitBreaker τ} {action : A} {error : Error}
      (before : Interleaved start log breaker none) (check : breaker.submit action = .error error) :
      Interleaved start (log ++ [.rejected action error]) breaker none
  | invoked {log : List (BreakerEvent A)} {breaker breaker' : CircuitBreaker τ} {action : A}
      {verdict : Except Error Unit} (before : Interleaved start log breaker none)
      (check : breaker.submit action = .ok (verdict, breaker')) :
      Interleaved start (log ++ [.invoked action]) breaker' (some verdict)
  | finished {log : List (BreakerEvent A)} {breaker breaker' : CircuitBreaker τ}
      {verdict returned : Except Error Unit} (before : Interleaved start log breaker (some verdict))
      (settle : breaker.settle verdict = (returned, breaker')) :
      Interleaved start (log ++ [.finished verdict returned]) breaker' none
  | reset {log : List (BreakerEvent A)} {breaker : CircuitBreaker τ}
      {inFlight : Option (Except Error Unit)} (before : Interleaved start log breaker inFlight) :
      Interleaved start (log ++ [.reset]) { breaker with state := breaker.state.reset } inFlight

/-- The actions that reached the executor. -/
def invokedActions (log : List (BreakerEvent A)) : List A :=
  log.filterMap fun
    | .invoked action => some action
    | .rejected _ _ => none
    | .finished _ _ => none
    | .reset => none

/-- The verdicts that were counted. -/
def countedVerdicts (log : List (BreakerEvent A)) : List (Except Error Unit) :=
  log.filterMap fun
    | .finished verdict _ => some verdict
    | .rejected _ _ => none
    | .invoked _ => none
    | .reset => none

/-- A check invokes the executor below the threshold and rejects from it on; an execution in flight
started below the threshold, and its verdict is returned unchanged. -/
def BreakerAnswered (maxFailures : Nat) (before : List (BreakerEvent A)) : BreakerEvent A → Prop
  | .rejected _ _ => maxFailures ≤ failuresSinceRecovery before
  | .invoked _ => failuresSinceRecovery before < maxFailures
  | .finished verdict returned => failuresSinceRecovery before < maxFailures ∧ returned = verdict
  | .reset => True

/-- What the breaker guarantees of a history. -/
structure Guarded [Executor τ A] (start : CircuitBreaker τ) (log : List (BreakerEvent A))
    (breaker : CircuitBreaker τ) (inFlight : Option (Except Error Unit)) : Prop where
  counter : breaker.state.failures = failuresSinceRecovery log
  counter_le : breaker.state.failures ≤ start.state.maxFailures.get
  /-- The counter does not wrap when the execution in flight fails. -/
  counts_one : inFlight.isSome → breaker.state.fetchAdd.failures = breaker.state.failures + 1
  /-- What a check made now does. -/
  invokes_iff : ∀ action : A,
    (∃ verdict breaker', breaker.submit action = .ok (verdict, breaker')) ↔
    failuresSinceRecovery log < start.state.maxFailures.get
  /-- What the steps before did. -/
  answered : Always (BreakerAnswered start.state.maxFailures.get) log
  /-- An open circuit does nothing but reject until a reset. -/
  stays_open : ∀ before middle after, log = before ++ middle ++ after →
    start.state.maxFailures.get ≤ failuresSinceRecovery before → .reset ∉ middle →
      ∀ event ∈ middle, ∃ action error, event = .rejected action error
  /-- The invoked actions reach the executor in order, once each. -/
  forwarded : executeAll start.executor (invokedActions log)
    = (countedVerdicts log ++ inFlight.toList, breaker.executor)

/-! ### The counter -/

section Counter

variable [Executor τ A] {start breaker : CircuitBreaker τ} {log : List (BreakerEvent A)}
  {inFlight : Option (Except Error Unit)}

/-- A check rejects exactly when the counter has reached the threshold. -/
theorem submit_eq_error {action : A} {error : Error} (h : breaker.submit action = .error error) :
    breaker.state.maxFailures.get ≤ breaker.state.failures := by
  unfold CircuitBreaker.submit BreakerState.isOpen at h
  split at h
  case isTrue hopen => simpa using hopen
  case isFalse => exact nomatch h

theorem submit_eq_ok {action : A} {verdict : Except Error Unit} {breaker' : CircuitBreaker τ}
    (h : breaker.submit action = .ok (verdict, breaker')) :
    breaker.state.failures < breaker.state.maxFailures.get ∧ breaker'.state = breaker.state ∧
      Executor.execute breaker.executor action = (verdict, breaker'.executor) := by
  unfold CircuitBreaker.submit BreakerState.isOpen at h
  split at h
  case isTrue => exact nomatch h
  case isFalse hclosed =>
    obtain ⟨rfl, rfl⟩ := Prod.mk.inj (Except.ok.inj h)
    exact ⟨by simpa using hclosed, rfl, rfl⟩

/-- Settling returns the verdict and leaves the executor alone. -/
theorem settle_eq {verdict returned : Except Error Unit} {breaker' : CircuitBreaker τ}
    (h : breaker.settle verdict = (returned, breaker')) :
    returned = verdict ∧ breaker'.executor = breaker.executor := by
  rcases verdict with error | ⟨⟨⟩⟩
  · obtain ⟨rfl, rfl⟩ := Prod.mk.inj h
    exact ⟨rfl, rfl⟩
  · obtain ⟨rfl, rfl⟩ := Prod.mk.inj h
    exact ⟨rfl, rfl⟩

/-- Below the threshold the counter does not wrap. -/
theorem fetchAdd_failures {state : BreakerState} (h : state.failures < state.maxFailures.get) :
    state.fetchAdd.failures = state.failures + 1 := by
  have hfits := state.maxFailures.fits
  exact Nat.mod_eq_of_lt (by omega)

/-- The counter is the number of failures since the last recovery, below the threshold while an
execution is in flight, and never above it. -/
structure Counts (start : CircuitBreaker τ) (log : List (BreakerEvent A))
    (breaker : CircuitBreaker τ)
    (inFlight : Option (Except Error Unit)) : Prop where
  maxFailures : breaker.state.maxFailures = start.state.maxFailures
  counter : breaker.state.failures = failuresSinceRecovery log
  counter_le : breaker.state.failures ≤ breaker.state.maxFailures.get
  counter_lt : inFlight.isSome → breaker.state.failures < breaker.state.maxFailures.get

theorem Interleaved.counts (h : Interleaved start log breaker inFlight)
    (hstart : start.state.failures = 0) : Counts start log breaker inFlight := by
  induction h with
  | nil => exact ⟨rfl, hstart, hstart ▸ Nat.zero_le _, fun h => nomatch h⟩
  | @rejected log breaker action error _ _ ih =>
    have hstreak : failuresSinceRecovery (log ++ [.rejected action error])
        = failuresSinceRecovery log := streak_concat_of_neither rfl rfl
    exact ⟨ih.maxFailures, ih.counter.trans hstreak.symm, ih.counter_le, fun h => nomatch h⟩
  | @invoked log breaker breaker' action verdict _ check ih =>
    obtain ⟨hlt, hstate, -⟩ := submit_eq_ok check
    have hstreak : failuresSinceRecovery (log ++ [.invoked action])
        = failuresSinceRecovery log := streak_concat_of_neither rfl rfl
    refine ⟨?_, ?_, ?_, ?_⟩
    · rw [hstate]
      exact ih.maxFailures
    · rw [hstate, hstreak]
      exact ih.counter
    · rw [hstate]
      exact ih.counter_le
    · intro _
      rwa [hstate]
  | @finished log breaker breaker' verdict returned _ settle ih =>
    -- the breaker was closed when the call was let through, so the counter has room for one more
    have hlt := ih.counter_lt rfl
    rcases verdict with error | ⟨⟨⟩⟩
    · obtain ⟨-, rfl⟩ := Prod.mk.inj settle
      have hstreak : failuresSinceRecovery (log ++ [.finished (.error error) returned])
          = failuresSinceRecovery log + 1 := streak_concat_of_bad rfl rfl
      have hadd := fetchAdd_failures hlt
      refine ⟨ih.maxFailures, ?_, ?_, fun h => nomatch h⟩
      · show breaker.state.fetchAdd.failures = _
        rw [hadd, hstreak, ih.counter]
      · show breaker.state.fetchAdd.failures ≤ breaker.state.maxFailures.get
        rw [hadd]
        exact hlt
    · obtain ⟨-, rfl⟩ := Prod.mk.inj settle
      have hstreak : failuresSinceRecovery (log ++ [.finished (.ok ()) returned]) = 0 :=
        streak_concat_of_reset rfl
      exact ⟨ih.maxFailures, hstreak.symm, Nat.zero_le _, fun h => nomatch h⟩
  | @reset log breaker inFlight _ ih =>
    have hstreak : failuresSinceRecovery (log ++ [.reset]) = 0 := streak_concat_of_reset rfl
    exact ⟨ih.maxFailures, hstreak.symm, Nat.zero_le _, fun _ => breaker.state.maxFailures.pos⟩

/-- A check admits the action exactly while the failures are below the threshold. -/
theorem Counts.submit_iff (h : Counts start log breaker inFlight) (action : A) :
    (∃ verdict breaker', breaker.submit action = .ok (verdict, breaker')) ↔
      failuresSinceRecovery log < start.state.maxFailures.get := by
  rw [← h.counter, ← h.maxFailures]
  constructor
  · rintro ⟨verdict, breaker', hadmit⟩
    exact (submit_eq_ok hadmit).1
  · intro hlt
    unfold CircuitBreaker.submit
    rw [if_neg (by simpa [BreakerState.isOpen] using hlt)]
    exact ⟨_, _, rfl⟩

end Counter

/-! ### The steps of a history -/

section Steps

variable [Executor τ A] {start breaker : CircuitBreaker τ} {log : List (BreakerEvent A)}
  {inFlight : Option (Except Error Unit)}

theorem Interleaved.answered (h : Interleaved start log breaker inFlight)
    (hstart : start.state.failures = 0) :
      Always (BreakerAnswered start.state.maxFailures.get) log := by
  induction h with
  | nil => exact Always.nil
  | rejected before check ih =>
    have hcounts := before.counts hstart
    apply ih.concat
    show _ ≤ _
    rw [← hcounts.counter, ← hcounts.maxFailures]
    exact submit_eq_error check
  | @invoked log breaker breaker' action verdict before check ih =>
    apply ih.concat
    exact ((before.counts hstart).submit_iff action).mp ⟨verdict, breaker', check⟩
  | @finished log breaker breaker' verdict returned before settle ih =>
    have hcounts := before.counts hstart
    apply ih.concat
    constructor
    · rw [← hcounts.counter, ← hcounts.maxFailures]
      exact hcounts.counter_lt rfl
    · exact (settle_eq settle).1
  | reset _ ih => exact ih.concat trivial

/-- Until a reset, an open circuit only rejects. -/
theorem stays_open_of_answered {maxFailures : Nat} {before middle after : List (BreakerEvent A)}
    (h : Always (BreakerAnswered maxFailures) (before ++ middle ++ after))
    (hopen : maxFailures ≤ failuresSinceRecovery before) (hreset : .reset ∉ middle) :
    ∀ event ∈ middle, ∃ action error, event = .rejected action error := by
  induction middle generalizing before with
  | nil =>
    intro event hevent
    simp at hevent
  | cons event middle ih =>
    have hanswered := h before event (middle ++ after) (by simp)
    have hrejected : ∃ action error, event = .rejected action error := by
      cases event with
      | rejected action error => exact ⟨action, error, rfl⟩
      | invoked action => exact absurd hanswered (Nat.not_lt_of_le hopen)
      | finished verdict returned => exact absurd hanswered.1 (Nat.not_lt_of_le hopen)
      | reset => exact absurd List.mem_cons_self hreset
    obtain ⟨action, error, rfl⟩ := hrejected
    have hrest : before ++ .rejected action error :: middle ++ after
        = before ++ [.rejected action error] ++ middle ++ after := by simp
    have hstreak : failuresSinceRecovery (before ++ [.rejected action error])
        = failuresSinceRecovery before := streak_concat_of_neither rfl rfl
    rw [hrest] at h
    intro event' hevent'
    rcases List.mem_cons.mp hevent' with rfl | hmem
    · exact ⟨action, error, rfl⟩
    · exact ih h (hstreak.symm ▸ hopen)
        (fun hmem => hreset (List.mem_cons_of_mem _ hmem)) event' hmem

theorem Interleaved.forwarded (h : Interleaved start log breaker inFlight) :
    executeAll start.executor (invokedActions log)
      = (countedVerdicts log ++ inFlight.toList, breaker.executor) := by
  induction h with
  | nil => rfl
  | rejected _ _ ih => simpa [invokedActions, countedVerdicts] using ih
  | @invoked log breaker breaker' action verdict _ check ih =>
    obtain ⟨-, -, hexecute⟩ := submit_eq_ok check
    have hactions : invokedActions (log ++ [.invoked action]) = invokedActions log ++ [action] := by
      simp [invokedActions]
    have hverdicts : countedVerdicts (log ++ [.invoked action]) = countedVerdicts log := by
      simp [countedVerdicts]
    rw [hactions, hverdicts, executeAll_concat, ih, hexecute]
    simp
  | @finished log breaker breaker' verdict returned _ settle ih =>
    have hactions : invokedActions (log ++ [.finished verdict returned]) = invokedActions log := by
      simp [invokedActions]
    have hverdicts : countedVerdicts (log ++ [.finished verdict returned])
        = countedVerdicts log ++ [verdict] := by
      simp [countedVerdicts]
    rw [hactions, hverdicts, ih, (settle_eq settle).2]
    simp
  | reset _ ih => simpa [invokedActions, countedVerdicts] using ih

/-- Whatever the executor answers and whenever an operator resets the breaker: an action reaches the
executor exactly when fewer than `maxFailures` failures were recorded since the last recovery. -/
theorem circuit_breaker_guards (executor : τ) (maxFailures : NonZeroU32)
    (h : Interleaved (CircuitBreaker.new executor maxFailures) log breaker inFlight) :
    Guarded (CircuitBreaker.new executor maxFailures) log breaker inFlight := by
  have hcounts := h.counts rfl
  have hanswered := h.answered rfl
  refine ⟨hcounts.counter, ?_, ?_, hcounts.submit_iff, hanswered, ?_, h.forwarded⟩
  · rw [← hcounts.maxFailures]
    exact hcounts.counter_le
  · exact fun hsome => fetchAdd_failures (hcounts.counter_lt hsome)
  · rintro before middle after rfl hopen hreset
    exact stays_open_of_answered hanswered hopen hreset

end Steps

/-! ### A reset in flight -/

/-- An executor that always fails. -/
structure Failing where

instance {A : Type} : Executor Failing A where
  execute executor _ := (.error "execute failed", executor)

/-- A reset that lands while an execution is in flight does not undo the failure it ends in. -/
theorem reset_in_flight :
    ∃ breaker : CircuitBreaker Failing,
      Interleaved (CircuitBreaker.new (⟨⟩ : Failing) ⟨1, by decide, by decide⟩)
        [.invoked 7, .reset, .finished (.error "execute failed") (.error "execute failed")]
        breaker none ∧
      Guarded (CircuitBreaker.new (⟨⟩ : Failing) ⟨1, by decide, by decide⟩)
        [.invoked 7, .reset, .finished (.error "execute failed") (.error "execute failed")]
        breaker none ∧
      breaker.state.isOpen = true := by
  have hrun : Interleaved (CircuitBreaker.new (⟨⟩ : Failing) ⟨1, by decide, by decide⟩)
      ([] ++ [.invoked 7] ++ [.reset]
        ++ [.finished (.error "execute failed") (.error "execute failed")])
      ⟨⟨⟩, ⟨1, by decide, by decide⟩, 1⟩ none :=
    .finished (.reset (.invoked .nil rfl)) rfl
  exact ⟨_, hrun, circuit_breaker_guards _ _ hrun, by decide⟩

end ArtemisLight
