import ArtemisLight.Executors.Mempool
import Mathlib.Data.List.Iterate
import Mathlib.Order.Iterate

/-!
## The replacement schedule

What each move of `nextStep` says about the outcome and does to the schedule, and the fee the
schedule is heading for: `lastFee` is the maximum fee of the last replacement the budget allows, no
move changes it, and no fee on the way exceeds it.
-/

namespace ArtemisLight

/-- `v` scaled `n` times. -/
def raised (percent n v : Nat) : Nat := (scalePercent · percent)^[n] v

@[simp] theorem raised_zero (percent v : Nat) : raised percent 0 v = v := rfl

theorem raised_succ (percent n v : Nat) :
    raised percent (n + 1) v = raised percent n (scalePercent v percent) := rfl

/-- Scaling by at least 100 % over and over never lowers the value. -/
theorem raised_mono {percent v m n : Nat} (hv : v ≤ u128Max) (hp : 100 ≤ percent) (h : m ≤ n) :
    raised percent m v ≤ raised percent n v := by
  have hmono : Monotone (scalePercent · percent) := fun _ _ hvw => scalePercent_mono hvw percent
  exact hmono.monotone_iterate_of_le_map (le_scalePercent hv hp) h

/-- The fees of the replacement that a move asks for. -/
def NextStep.replacement : NextStep → Option Fees
  | .replace fees => some fees
  | .confirmed => none
  | .rewatch => none
  | .giveUp => none

namespace ReplacementSchedule

variable {s s' : ReplacementSchedule} {o : WatchOutcome} {fees : Fees}

theorem escalate_eq_some (h : s.escalate = (some fees, s')) :
    s.issued < s.maxReplacements ∧ fees = ArtemisLight.escalate s.fees s.escalationPercent ∧
      s' = { s with issued := s.issued + 1, fees := fees } := by
  unfold escalate at h
  split at h
  case isTrue => simp at h
  case isFalse hlt =>
    rw [Prod.mk.injEq, Option.some.injEq] at h
    obtain ⟨rfl, rfl⟩ := h
    exact ⟨by omega, rfl, rfl⟩

/-- A replacement answers a timed-out watch: it uses up one of the budget and raises the fees. -/
theorem nextStep_replace (h : s.nextStep o = (.replace fees, s')) :
    o = .timedOut ∧ s.issued < s.maxReplacements ∧
      fees = ArtemisLight.escalate s.fees s.escalationPercent ∧
      s' = { s with transportFailures := 0, issued := s.issued + 1, fees := fees } := by
  cases o with
  | confirmed => simp [nextStep] at h
  | transportError => simp only [nextStep] at h; split at h <;> simp at h
  | timedOut =>
    simp only [nextStep] at h
    split at h
    case h_1 f t ht =>
      simp only [Prod.mk.injEq, NextStep.replace.injEq] at h
      obtain ⟨rfl, rfl⟩ := h
      obtain ⟨hlt, hf, ht'⟩ := escalate_eq_some ht
      exact ⟨rfl, hlt, hf, ht'⟩
    case h_2 => simp at h

/-- A re-watch answers a transport error: it only counts the error. -/
theorem nextStep_rewatch (h : s.nextStep o = (.rewatch, s')) :
    o = .transportError ∧ s.transportFailures < maxTransportFailures ∧
      s' = { s with transportFailures := s.transportFailures + 1 } := by
  cases o with
  | confirmed => simp [nextStep] at h
  | timedOut => simp only [nextStep] at h; split at h <;> simp at h
  | transportError =>
    simp only [nextStep] at h
    split at h
    case isTrue => simp at h
    case isFalse hle =>
      rw [Prod.mk.injEq] at h
      exact ⟨rfl, by omega, h.2.symm⟩

/-- The maximum fee of the last replacement the budget allows. -/
def lastFee (s : ReplacementSchedule) : Nat :=
  raised s.escalationPercent (s.maxReplacements - s.issued) s.fees.maxFeePerGas

/-- No fee exceeds the one the schedule is heading for. -/
theorem maxFee_le_lastFee (h : 100 ≤ s.escalationPercent) : s.fees.maxFeePerGas ≤ s.lastFee :=
  raised_mono s.fees.fits h (Nat.zero_le _)

theorem lastFee_replace (h : s.nextStep o = (.replace fees, s')) : s'.lastFee = s.lastFee := by
  obtain ⟨-, hlt, rfl, rfl⟩ := nextStep_replace h
  have hn : s.maxReplacements - s.issued = s.maxReplacements - (s.issued + 1) + 1 := by omega
  unfold lastFee
  rw [hn, raised_succ]
  rfl

theorem lastFee_rewatch (h : s.nextStep o = (.rewatch, s')) : s'.lastFee = s.lastFee := by
  obtain ⟨-, -, rfl⟩ := nextStep_rewatch h
  rfl

/-- The number of watches the loop can still make. -/
def watchesLeft (s : ReplacementSchedule) : Nat :=
  (s.maxReplacements - s.issued) * (maxTransportFailures + 1)
    + (maxTransportFailures + 1 - s.transportFailures)

theorem watchesLeft_replace (h : s.nextStep o = (.replace fees, s'))
    (hs : s.transportFailures ≤ maxTransportFailures) : s'.watchesLeft < s.watchesLeft := by
  obtain ⟨-, hlt, -, rfl⟩ := nextStep_replace h
  simp only [watchesLeft, maxTransportFailures] at hs ⊢
  omega

theorem watchesLeft_rewatch (h : s.nextStep o = (.rewatch, s')) :
    s'.watchesLeft < s.watchesLeft := by
  obtain ⟨-, hlt, rfl⟩ := nextStep_rewatch h
  simp only [watchesLeft, maxTransportFailures] at hlt ⊢
  omega

/-! ### Sequences of watches -/

/-- The schedule after a sequence of watches. -/
def after (s : ReplacementSchedule) (outcomes : List WatchOutcome) : ReplacementSchedule :=
  outcomes.foldl (fun s o => (s.nextStep o).2) s

/-- The fees of the replacements that a sequence of watches brings about. -/
def replacements (s : ReplacementSchedule) : List WatchOutcome → List Fees
  | [] => []
  | o :: os => (s.nextStep o).1.replacement.toList ++ replacements (s.nextStep o).2 os

/-- A transport error is counted, and changes nothing else. -/
theorem nextStep_transportError (s : ReplacementSchedule) :
    (s.nextStep .transportError).1.replacement = none ∧
      (s.nextStep .transportError).2 = { s with transportFailures := s.transportFailures + 1 } := by
  simp only [nextStep]
  split <;> exact ⟨rfl, rfl⟩

/-- A timed-out watch that finds the budget unspent is answered with a replacement. -/
theorem nextStep_timedOut_of_lt (h : s.issued < s.maxReplacements) :
    s.nextStep .timedOut = (.replace (ArtemisLight.escalate s.fees s.escalationPercent),
      { s with
        transportFailures := 0, issued := s.issued + 1,
        fees := ArtemisLight.escalate s.fees s.escalationPercent }) := by
  simp only [nextStep, escalate]
  rw [if_neg (by omega)]

/-- A timed-out watch that finds the budget spent ends the loop. -/
theorem nextStep_timedOut_of_le (h : s.maxReplacements ≤ s.issued) :
    s.nextStep .timedOut = (.giveUp, { s with transportFailures := 0 }) := by
  simp only [nextStep, escalate]
  rw [if_pos h]

/-- Each timed-out watch that finds the budget unspent brings about one replacement, and the `k`-th
one escalates the fees `k` times. -/
theorem replacements_eq_iterate (s : ReplacementSchedule) (os : List WatchOutcome) :
    s.replacements os = List.iterate (ArtemisLight.escalate · s.escalationPercent)
      (ArtemisLight.escalate s.fees s.escalationPercent)
      (min (os.count .timedOut) (s.maxReplacements - s.issued)) := by
  induction os generalizing s with
  | nil => simp [replacements, List.iterate]
  | cons o os ih =>
    cases o with
    | confirmed =>
      have hcount : (WatchOutcome.confirmed :: os).count .timedOut = os.count .timedOut :=
        List.count_cons_of_ne (by decide)
      rw [hcount]
      exact ih s
    | transportError =>
      obtain ⟨hnone, hnext⟩ := s.nextStep_transportError
      have hcount : (WatchOutcome.transportError :: os).count .timedOut = os.count .timedOut :=
        List.count_cons_of_ne (by decide)
      rw [replacements, hnone, hnext, ih, hcount]
      rfl
    | timedOut =>
      rw [List.count_cons_self, replacements]
      rcases Nat.lt_or_ge s.issued s.maxReplacements with hlt | hge
      · have hn : min (os.count .timedOut + 1) (s.maxReplacements - s.issued)
            = min (os.count .timedOut) (s.maxReplacements - (s.issued + 1)) + 1 := by omega
        rw [nextStep_timedOut_of_lt hlt, ih, hn]
        rfl
      · have hn : ∀ n, min n (s.maxReplacements - s.issued) = 0 := by omega
        rw [nextStep_timedOut_of_le hge, ih, hn, hn]
        rfl

end ReplacementSchedule

/-! ### The loop ends -/

section Ends

variable {N : Type} [Provider N]

theorem unlessMined_finishes (sent : List TxHash) (e : Error) :
    Holds (fun _ : Wire N => True) (unlessMined sent e) fun r _ => r ≠ .ok none := by
  intro w _
  unfold unlessMined
  rw [Proc.exec_step_bind]
  cases (anyMined sent w).1 <;> simp

/-- Every move that stays in the loop uses up one of the watches left, so enough fuel ends it. -/
theorem watchLoop_finishes {fuel : Nat} {tx : TransactionRequest} {pending : TxHash}
    {sent : List TxHash} {schedule : ReplacementSchedule}
    (hs : schedule.transportFailures ≤ ReplacementSchedule.maxTransportFailures)
    (hfuel : schedule.watchesLeft ≤ fuel) :
    Holds (fun _ : Wire N => True) (watchLoop fuel tx pending sent schedule)
      fun r _ => r ≠ .ok none := by
  induction fuel generalizing tx pending sent schedule with
  | zero =>
    simp only [ReplacementSchedule.watchesLeft,
      ReplacementSchedule.maxTransportFailures] at hs hfuel
    omega
  | succ fuel ih =>
    refine Holds.bind_right (by simp) fun watched => ?_
    rcases hnext : schedule.nextStep (WatchOutcome.classify watched) with ⟨next, schedule'⟩
    cases next with
    | confirmed => exact Holds.pure fun _ _ => by simp
    | giveUp => exact unlessMined_finishes _ _
    | rewatch =>
      have hleft := ReplacementSchedule.watchesLeft_rewatch hnext
      obtain ⟨-, hlt, rfl⟩ := ReplacementSchedule.nextStep_rewatch hnext
      cases watched with
      | ok _ => exact Holds.throw fun _ _ => by simp
      | error _ =>
        rcases sent.getLast? with _ | hash
        · exact Holds.throw fun _ _ => by simp
        · exact ih hlt (by omega)
    | replace fees =>
      have hleft := ReplacementSchedule.watchesLeft_replace hnext hs
      obtain ⟨-, -, -, rfl⟩ := ReplacementSchedule.nextStep_replace hnext
      refine Holds.bind_right (by simp) fun resent => ?_
      cases resent with
      | ok hash => exact ih (Nat.zero_le _) (by omega)
      | error e => exact unlessMined_finishes _ _

/-- The fuel of `sendWithReplacement` is never spent. -/
theorem sendWithReplacement_finishes (tx : TransactionRequest) (fees : Fees)
    (policy : ReplacementPolicy) :
    Holds (fun _ : Wire N => True) (sendWithReplacement tx fees policy)
      fun r _ => r ≠ .ok none := by
  unfold sendWithReplacement
  rcases tx.sender with _ | sender
  · exact Holds.throw fun _ _ => by simp
  · refine Holds.bind_right (by simp) fun nonce => Holds.bind_right (by simp) fun pending => ?_
    refine watchLoop_finishes (Nat.zero_le _) ?_
    simp only [ReplacementSchedule.watchesLeft, ReplacementSchedule.new,
      ReplacementPolicy.maxWatches, ReplacementSchedule.maxTransportFailures]
    omega

/-- `execute` returns an error or finishes. -/
theorem execute_finishes (executor : MempoolExecutor) (action : SubmitTxToMempool) :
    Holds (fun _ : Wire N => True) (executor.execute action) fun r _ => r ≠ .ok none := by
  have priced : ∀ fees gasUsage, Holds (fun _ : Wire N => True)
      (executor.sendPriced action.tx gasUsage fees) fun r _ => r ≠ .ok none := by
    intro fees gasUsage
    unfold MempoolExecutor.sendPriced
    rcases executor.replacement with _ | policy
    · exact Holds.bind_right (by simp) fun _ => Holds.pure fun _ _ => by simp
    · exact sendWithReplacement_finishes _ _ _
  unfold MempoolExecutor.execute
  split
  case h_1 bid _ =>
    split
    · exact Holds.bind_right (by simp) fun _ => Holds.bind_right (by simp) fun _ =>
        Holds.bind_right (by simp) fun _ => Holds.bind_right (by simp) fun fees => priced fees _
    · exact Holds.bind_right (by simp) fun _ => Holds.bind_right (by simp) fun _ =>
        Holds.bind_right (by simp) fun fees => priced fees _
  case h_2 =>
    exact Holds.bind_right (by simp) fun _ => Holds.bind_right (by simp) fun _ =>
      Holds.bind_right (by simp) fun fees => priced fees _

end Ends

end ArtemisLight
