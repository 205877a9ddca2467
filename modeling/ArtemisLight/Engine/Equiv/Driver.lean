import ArtemisLight.Engine.Driver
import ArtemisLight.Lib.Streak
import ArtemisLight.Lib.Trace

/-!
## Escalation over whole runs

`Driven` is a run of the driver: the signals of its awaits, and what it does on each of them.
`reconnect_escalates`: the policy's counter is the number of failures since the last delivered event
or healthy end, and the driver escalates exactly when that number reaches the threshold.
-/

namespace ArtemisLight

/-- The number of consecutive failures that escalates. -/
def ReconnectConfig.threshold (config : ReconnectConfig) : Nat := max 1 config.maxFailures

/-! ### The policy -/

theorem delay_eq (backoff : Backoff) (attempt : Nat) :
    backoff.delay attempt = min (backoff.base * min (2 ^ attempt) u32Max) durationMax := by
  unfold Backoff.delay
  by_cases h : 2 ^ attempt ≤ u32Max
  · rw [if_pos h, Nat.min_eq_left h]
  · rw [if_neg h, Nat.min_eq_right (Nat.le_of_not_le h)]

namespace ReconnectPolicy

variable {policy : ReconnectPolicy}

theorem threshold_le (config : ReconnectConfig) : config.threshold ≤ u32Max :=
  Nat.max_le.mpr ⟨by decide, config.maxFailures_le⟩

/-- A failure below the threshold is counted, and the verdict is fatal when it completes it. -/
theorem recordFailure_cases (h : policy.failures < policy.config.threshold) :
    (policy.failures + 1 = policy.config.threshold ∧
        policy.recordFailure = (.fatal, ⟨policy.config, policy.failures + 1⟩)) ∨
      (policy.failures + 1 < policy.config.threshold ∧
        policy.recordFailure = (.retry (min (policy.config.baseDelay
          * min (2 ^ (policy.failures + 1)) u32Max) durationMax),
            ⟨policy.config, policy.failures + 1⟩)) := by
  have hle := threshold_le policy.config
  have hmod : (policy.failures + 1) % (u32Max + 1) = policy.failures + 1 :=
    Nat.mod_eq_of_lt (by omega)
  unfold recordFailure
  simp only [hmod, backoff, delay_eq]
  unfold ReconnectConfig.threshold at h ⊢
  by_cases hmax : policy.config.maxFailures ≤ policy.failures + 1
  · rw [if_pos hmax]
    exact Or.inl ⟨by omega, rfl⟩
  · rw [if_neg hmax]
    exact Or.inr ⟨by omega, rfl⟩

/-- A healthy end resets the counter and waits for the base delay. -/
theorem onStreamEnded_of_healthy {uptime : Duration} (h : policy.config.healthyUptime ≤ uptime) :
    policy.onStreamEnded uptime = (.retry policy.config.baseDelay, ⟨policy.config, 0⟩) := by
  have hdelay : (Backoff.mk policy.config.baseDelay).delay 0 = policy.config.baseDelay := by
    rw [delay_eq]
    show min (policy.config.baseDelay * 1) durationMax = _
    rw [Nat.mul_one, Nat.min_eq_left policy.config.baseDelay_le]
  unfold onStreamEnded
  rw [if_pos h]
  simp only [backoff, hdelay]

end ReconnectPolicy

namespace Driver

variable {E : Type}

/-! ### Runs -/

/-- The signals of a run with the effects of each, and the driver after them. -/
inductive Driven (config : ReconnectConfig) : List (Signal E × List (Effect E)) → Driver → Prop
  | nil : Driven config [] (Driver.new config)
  | step {trace : List (Signal E × List (Effect E))} {driver driver' : Driver} {signal : Signal E}
      {effects : List (Effect E)} (before : Driven config trace driver)
      (resume : driver.resume signal = some (effects, driver')) :
      Driven config (trace ++ [(signal, effects)]) driver'

namespace Signal

/-- A subscribe error, or the end of a stream before it was healthy. -/
def isFailure (config : ReconnectConfig) : Signal E → Bool
  | .subscribeFailed => true
  | .ended uptime => uptime < config.healthyUptime
  | .delivered _ => false
  | .subscribed => false
  | .slept => false
  | .cancelled => false

/-- A delivered event, or the end of a healthy stream. -/
def isRecovery (config : ReconnectConfig) : Signal E → Bool
  | .delivered _ => true
  | .ended uptime => config.healthyUptime ≤ uptime
  | .subscribeFailed => false
  | .subscribed => false
  | .slept => false
  | .cancelled => false

end Signal

/-- The failures of a trace since its last recovery. -/
def consecutiveFailures (config : ReconnectConfig) (trace : List (Signal E × List (Effect E))) :
    Nat :=
  streak (fun entry => entry.1.isFailure config) (fun entry => entry.1.isRecovery config) trace

/-- What the driver does on the signal that follows `past`. -/
structure Reconnects (config : ReconnectConfig) (past : List (Signal E × List (Effect E)))
    (entry : Signal E × List (Effect E)) : Prop where
  /-- The driver has not returned. -/
  running : ∀ earlier ∈ past, .exit ∉ earlier.2
  /-- One more failure does not overflow the counter. -/
  below : consecutiveFailures config past < config.threshold
  escalates_iff : (∃ token, .cancel token ∈ entry.2) ↔
    entry.1.isFailure config ∧ consecutiveFailures config (past ++ [entry]) = config.threshold
  /-- The fatal token is cancelled before the root token. -/
  escalation : (∃ token, .cancel token ∈ entry.2) →
    entry.2 = [.cancel .fatal, .cancel .root, .exit]
  waits : entry.1.isFailure config →
    consecutiveFailures config (past ++ [entry]) < config.threshold →
    entry.2 = [.sleep (min (config.baseDelay
      * min (2 ^ consecutiveFailures config (past ++ [entry])) u32Max) durationMax)]
  healthy : ∀ uptime, entry.1 = .ended uptime → config.healthyUptime ≤ uptime →
    entry.2 = [.sleep config.baseDelay]
  cancelled : entry.1 = .cancelled → entry.2 = [.exit]

/-! ### One step -/

/-- What the driver does from one await to the next, by the kind of signal. -/
theorem resume_cases {driver driver' : Driver} {signal : Signal E} {effects : List (Effect E)}
    (h : driver.resume signal = some (effects, driver')) :
    driver.awaiting.isSome ∧
      ((signal = .cancelled ∧ effects = [.exit] ∧ driver' = ⟨driver.policy, none⟩) ∨
      ((signal = .subscribed ∨ signal = .slept) ∧ effects = [] ∧ driver'.policy = driver.policy) ∨
      (∃ event, signal = .delivered event ∧ effects = [.send event] ∧
        driver'.policy = driver.policy.onEventsReceived) ∨
      (signal.isFailure driver.policy.config = true ∧
        (effects, driver') = obey driver.policy.recordFailure) ∨
      ∃ uptime, signal = .ended uptime ∧ driver.policy.config.healthyUptime ≤ uptime ∧
        (effects, driver') = obey (driver.policy.onStreamEnded uptime)) := by
  obtain ⟨policy, awaiting⟩ := driver
  cases awaiting with
  | none => exact nomatch h
  | some await =>
    refine ⟨rfl, ?_⟩
    -- each signal answers one await of the driver, and none of the others
    cases signal with
    | cancelled =>
      obtain ⟨rfl, rfl⟩ := Prod.mk.inj (Option.some.inj h)
      exact Or.inl ⟨rfl, rfl, rfl⟩
    | subscribed =>
      cases await with
      | subscribe =>
        obtain ⟨rfl, rfl⟩ := Prod.mk.inj (Option.some.inj h)
        exact Or.inr (Or.inl ⟨Or.inl rfl, rfl, rfl⟩)
      | next => exact nomatch h
      | sleep => exact nomatch h
    | subscribeFailed =>
      cases await with
      | subscribe => exact Or.inr (Or.inr (Or.inr (Or.inl ⟨rfl, (Option.some.inj h).symm⟩)))
      | next => exact nomatch h
      | sleep => exact nomatch h
    | delivered event =>
      cases await with
      | subscribe => exact nomatch h
      | next =>
        obtain ⟨rfl, rfl⟩ := Prod.mk.inj (Option.some.inj h)
        exact Or.inr (Or.inr (Or.inl ⟨event, rfl, rfl, rfl⟩))
      | sleep => exact nomatch h
    | ended uptime =>
      cases await with
      | subscribe => exact nomatch h
      | next =>
        have heq := (Option.some.inj h).symm
        rcases Nat.lt_or_ge uptime policy.config.healthyUptime with hlt | hge
        · -- a flap is recorded as any failure
          have hrecord : policy.onStreamEnded uptime = policy.recordFailure :=
            if_neg (Nat.not_le_of_lt hlt)
          refine Or.inr (Or.inr (Or.inr (Or.inl ⟨decide_eq_true hlt, ?_⟩)))
          rw [← hrecord]
          exact heq
        · exact Or.inr (Or.inr (Or.inr (Or.inr ⟨uptime, rfl, hge, heq⟩)))
      | sleep => exact nomatch h
    | slept =>
      cases await with
      | subscribe => exact nomatch h
      | next => exact nomatch h
      | sleep =>
        obtain ⟨rfl, rfl⟩ := Prod.mk.inj (Option.some.inj h)
        exact Or.inr (Or.inl ⟨Or.inr rfl, rfl, rfl⟩)

/-- The counter of a driver that awaits is below the threshold, and the driver has not returned. -/
structure Counted (config : ReconnectConfig) (trace : List (Signal E × List (Effect E)))
    (driver : Driver) : Prop where
  config_eq : driver.policy.config = config
  failures : driver.policy.failures = consecutiveFailures config trace
  failures_le : driver.policy.failures ≤ config.threshold
  below : driver.awaiting.isSome → driver.policy.failures < config.threshold
  running : driver.awaiting.isSome → ∀ entry ∈ trace, .exit ∉ entry.2

section Step

variable {config : ReconnectConfig} {trace : List (Signal E × List (Effect E))}
  {driver driver' : Driver} {signal : Signal E} {effects : List (Effect E)}

theorem Signal.isRecovery_of_isFailure (h : signal.isFailure config = true) :
    signal.isRecovery config = false := by
  cases signal with
  | ended uptime =>
    have hlt : uptime < config.healthyUptime := by simpa [Signal.isFailure] using h
    simpa [Signal.isRecovery] using hlt
  | delivered _ => exact nomatch h
  | subscribeFailed => rfl
  | subscribed => rfl
  | slept => rfl
  | cancelled => rfl

/-- Without a failure the driver does not escalate. -/
theorem Counted.reconnects_of_not_failure (h : Counted config trace driver)
    (hawaiting : driver.awaiting.isSome) (hfailure : signal.isFailure config = false)
    (hcancel : ∀ token, .cancel token ∉ effects)
    (hhealthy : ∀ uptime, signal = .ended uptime → effects = [.sleep config.baseDelay])
    (hcancelled : signal = .cancelled → effects = [.exit]) :
    Reconnects config trace (signal, effects) := by
  have hnone : ¬ ∃ token, .cancel token ∈ effects := fun ⟨token, ht⟩ => hcancel token ht
  refine ⟨h.running hawaiting, h.failures ▸ h.below hawaiting, ?_, fun ht => absurd ht hnone, ?_,
    fun uptime heq _ => hhealthy uptime heq, hcancelled⟩
  · refine iff_of_false hnone ?_
    rintro ⟨hf, -⟩
    exact absurd hf (by simp [hfailure])
  · intro hf
    exact absurd hf (by simp [hfailure])

/-- A signal that leaves the counter alone. -/
theorem Counted.keep (h : Counted config trace driver) (hawaiting : driver.awaiting.isSome)
    (hpolicy : driver'.policy = driver.policy) (hfailure : signal.isFailure config = false)
    (hrecovery : signal.isRecovery config = false)
    (hexit : driver'.awaiting.isSome → .exit ∉ effects) :
    Counted config (trace ++ [(signal, effects)]) driver' := by
  have hstreak : consecutiveFailures config (trace ++ [(signal, effects)])
      = consecutiveFailures config trace := streak_concat_of_neither hrecovery hfailure
  refine ⟨hpolicy ▸ h.config_eq, ?_, hpolicy ▸ h.failures_le, fun _ => hpolicy ▸ h.below hawaiting,
    ?_⟩
  · rw [hpolicy, hstreak]
    exact h.failures
  · intro hawaiting' entry hentry
    rcases List.mem_append.mp hentry with hentry | hentry
    · exact h.running hawaiting entry hentry
    · rw [List.mem_singleton.mp hentry]
      exact hexit hawaiting'

/-- A signal that resets the counter. -/
theorem Counted.recover (h : Counted config trace driver) (hawaiting : driver.awaiting.isSome)
    (hconfig : driver'.policy.config = config) (hfailures : driver'.policy.failures = 0)
    (hrecovery : signal.isRecovery config = true) (hexit : .exit ∉ effects) :
    Counted config (trace ++ [(signal, effects)]) driver' := by
  have hstreak : consecutiveFailures config (trace ++ [(signal, effects)]) = 0 :=
    streak_concat_of_reset hrecovery
  have hpos : 0 < config.threshold := Nat.lt_of_lt_of_le Nat.zero_lt_one (Nat.le_max_left _ _)
  refine ⟨hconfig, hfailures.trans hstreak.symm, hfailures ▸ Nat.zero_le _,
    fun _ => hfailures ▸ hpos, ?_⟩
  intro _ entry hentry
  rcases List.mem_append.mp hentry with hentry | hentry
  · exact h.running hawaiting entry hentry
  · rw [List.mem_singleton.mp hentry]
    exact hexit

/-- A failure is counted, and the one that completes the threshold escalates. -/
theorem Counted.fail (h : Counted config trace driver) (hawaiting : driver.awaiting.isSome)
    (hfailure : signal.isFailure config = true)
    (hobey : (effects, driver') = obey driver.policy.recordFailure) :
    Counted config (trace ++ [(signal, effects)]) driver' ∧
      Reconnects config trace (signal, effects) := by
  have hbelow := h.below hawaiting
  have hrunning := h.running hawaiting
  have hstreak : consecutiveFailures config (trace ++ [(signal, effects)])
      = driver.policy.failures + 1 := by
    rw [h.failures]
    exact streak_concat_of_bad (Signal.isRecovery_of_isFailure hfailure) hfailure
  have hnotHealthy : ∀ uptime, signal = .ended uptime → ¬ config.healthyUptime ≤ uptime := by
    rintro uptime rfl
    simpa [Signal.isFailure] using hfailure
  have hnotCancelled : signal ≠ .cancelled := by
    rintro rfl
    exact nomatch hfailure
  obtain ⟨hconfig, hfailures, hfailures_le, -, -⟩ := h
  subst hconfig
  rcases ReconnectPolicy.recordFailure_cases hbelow with ⟨hlast, hrecord⟩ | ⟨hlt, hrecord⟩
  -- the failure is the last one allowed: fatal
  · rw [hrecord] at hobey
    obtain ⟨rfl, rfl⟩ := Prod.mk.inj hobey
    constructor
    · refine ⟨rfl, hstreak.symm, Nat.le_of_eq hlast, ?_, ?_⟩
      · exact fun hnone => nomatch hnone
      · exact fun hnone => nomatch hnone
    · refine ⟨hrunning, hfailures ▸ hbelow, ?_, fun _ => rfl, ?_,
        fun uptime heq hle => absurd hle (hnotHealthy uptime heq), fun hc =>
          absurd hc hnotCancelled⟩
      · exact iff_of_true ⟨.fatal, List.mem_cons_self⟩ ⟨hfailure, hstreak.trans hlast⟩
      · intro _ hlt
        rw [hstreak] at hlt
        exact absurd hlast (Nat.ne_of_lt hlt)
  · rw [hrecord] at hobey
    obtain ⟨rfl, rfl⟩ := Prod.mk.inj hobey
    have hnone : ¬ ∃ token,
      (.cancel token : Effect E) ∈ [.sleep (min (driver.policy.config.baseDelay
        * min (2 ^ (driver.policy.failures + 1)) u32Max) durationMax)] := by simp
    constructor
    · refine ⟨rfl, hstreak.symm, Nat.le_of_lt hlt, fun _ => hlt, ?_⟩
      intro _ entry hentry
      rcases List.mem_append.mp hentry with hentry | hentry
      · exact hrunning entry hentry
      · rw [List.mem_singleton.mp hentry]
        simp
    · refine ⟨hrunning, hfailures ▸ hbelow, iff_of_false hnone ?_, fun ht => absurd ht hnone, ?_,
        fun uptime heq hle => absurd hle (hnotHealthy uptime heq), fun hc =>
          absurd hc hnotCancelled⟩
      · rintro ⟨-, heq⟩
        rw [hstreak] at heq
        exact absurd heq (Nat.ne_of_lt hlt)
      · intro _ _
        rw [hstreak]

/-- What one step of the driver does. -/
theorem Counted.step (h : Counted config trace driver)
    (hresume : driver.resume signal = some (effects, driver')) :
    Counted config (trace ++ [(signal, effects)]) driver' ∧
      Reconnects config trace (signal, effects) := by
  obtain ⟨hawaiting, hcases⟩ := resume_cases hresume
  have hconfig := h.config_eq
  rcases hcases with ⟨rfl, rfl, rfl⟩ | ⟨hsignal, rfl, hpolicy⟩ | ⟨event, rfl, rfl, hpolicy⟩ |
    ⟨hfailure, hobey⟩ | ⟨uptime, rfl, hle, hobey⟩
  · exact ⟨h.keep hawaiting rfl rfl rfl (by simp),
      h.reconnects_of_not_failure hawaiting rfl (by simp) (by simp) fun _ => rfl⟩
  · have hneither : signal.isFailure config = false ∧ signal.isRecovery config = false := by
      rcases hsignal with rfl | rfl <;> exact ⟨rfl, rfl⟩
    refine ⟨h.keep hawaiting hpolicy hneither.1 hneither.2 (by simp),
      h.reconnects_of_not_failure hawaiting hneither.1 (by simp) ?_ ?_⟩
    · rintro uptime rfl
      simp at hsignal
    · rintro rfl
      simp at hsignal
  · exact ⟨h.recover hawaiting (by rw [hpolicy]; exact hconfig) (by rw [hpolicy]; rfl) rfl
      (by simp),
      h.reconnects_of_not_failure hawaiting rfl (by simp) (by simp) (by simp)⟩
  · exact h.fail hawaiting (hconfig ▸ hfailure) hobey
  · rw [ReconnectPolicy.onStreamEnded_of_healthy hle] at hobey
    obtain ⟨rfl, rfl⟩ := Prod.mk.inj hobey
    rw [hconfig] at hle ⊢
    have hfailure : (Signal.ended uptime : Signal E).isFailure config = false :=
      decide_eq_false (Nat.not_lt_of_le hle)
    exact ⟨h.recover hawaiting rfl rfl (decide_eq_true hle) (by simp),
      h.reconnects_of_not_failure hawaiting hfailure (by simp) (fun _ _ => rfl) (by simp)⟩

end Step

/-- Over every run: the driver escalates exactly on the failure that completes the threshold, waits
out the backoff before it, and never counts past it. -/
theorem reconnect_escalates {config : ReconnectConfig} {trace : List (Signal E × List (Effect E))}
    {driver : Driver} (h : Driven config trace driver) :
    Always (Reconnects config) trace ∧
      driver.policy.failures = consecutiveFailures config trace ∧
      driver.policy.failures ≤ config.threshold ∧ config.threshold ≤ u32Max := by
  have hrun : Counted config trace driver ∧ Always (Reconnects config) trace := by
    induction h with
    | nil =>
      have hpos : 0 < config.threshold := Nat.lt_of_lt_of_le Nat.zero_lt_one (Nat.le_max_left _ _)
      exact ⟨⟨rfl, rfl, Nat.zero_le _, fun _ => hpos, fun _ entry hentry => nomatch hentry⟩,
        Always.nil⟩
    | step _ resume ih =>
      obtain ⟨hcounted, hreconnects⟩ := ih.1.step resume
      exact ⟨hcounted, ih.2.concat hreconnects⟩
  exact ⟨hrun.2, hrun.1.failures, hrun.1.failures_le, ReconnectPolicy.threshold_le config⟩

/-- Two failures in a row escalate; a stream open for 30 seconds is healthy. -/
def twoFailures : ReconnectConfig := ⟨2, 1000000000, 30000000000, by decide, by decide⟩

/-- A failed subscription, and then a stream that ends at once. -/
def flappingTrace : List (Signal Nat × List (Effect Nat)) :=
  [(.subscribeFailed, [.sleep 2000000000]), (.slept, []), (.subscribed, []),
    (.ended 0, [.cancel .fatal, .cancel .root, .exit])]

/-- The flap is the second failure in a row. -/
theorem flapping_escalates :
    ∃ driver, Driven twoFailures flappingTrace driver ∧
      Always (Reconnects twoFailures) flappingTrace ∧
      driver.policy.failures = consecutiveFailures twoFailures flappingTrace ∧
      driver.policy.failures ≤ twoFailures.threshold ∧ twoFailures.threshold ≤ u32Max := by
  have hrun : Driven twoFailures ([] ++ [(.subscribeFailed, [.sleep 2000000000])] ++ [(.slept, [])]
      ++ [(.subscribed, [])] ++ [((.ended 0 : Signal Nat), [.cancel .fatal, .cancel .root, .exit])])
      ⟨⟨twoFailures, 2⟩, none⟩ :=
    .step (.step (.step (.step .nil rfl) rfl) rfl) rfl
  exact ⟨_, hrun, reconnect_escalates hrun⟩

end Driver

end ArtemisLight
