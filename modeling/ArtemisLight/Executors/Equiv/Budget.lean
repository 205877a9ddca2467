import ArtemisLight.Executors.Equiv.Pricing
import ArtemisLight.Executors.Equiv.Sweep
import ArtemisLight.Lib.Streak

/-!
## The replacement budget

What the replacement loop asks of a node, call by call, and where it ends.  `Overheard` is a node
with a log of the submissions and the watches; `LoopRun` says which logs the loop leaves, one
constructor for each way through its body.

* `replacement_loop_conducted`: the loop ends, it replaces the transaction exactly when a watch
  times out and the budget is unspent, and it gives up exactly when the budget or the tolerance of
  transport errors is exhausted.

The code leaves one of these logs (`reachVerdict_run`).  `after_new` computes the schedule after any
outcomes, so that `replace_after`, `rewatch_after` and `giveUp_after` can read a step off them.  By
induction on the run, `LoopRun.orderly` gives the call that follows each call,
`LoopRun.submissions_eq` the replacements, `LoopRun.length_outcomes_le` the bound on the watches,
and `LoopRun.exhausted_iff`, `confirmed_iff` and `refused_iff` the ending; `LoopRun.conducted`
collects them.
-/

namespace ArtemisLight

/-! ### The log -/

/-- A call to the node. -/
inductive Exchange where
  /-- A submission, and the hash that the node acknowledges it with. -/
  | sent (tx : TransactionRequest) (acknowledged : Option TxHash)
  | watched (hash : TxHash) (outcome : WatchOutcome)
  | lookedUp (hash : TxHash)
  deriving DecidableEq

/-- A node with a log of its submissions, watches and receipt lookups. -/
structure Overheard (N : Type) where
  node : N
  log : List Exchange

/-- The acknowledgement of a submission. -/
def Rpc.value {α : Type} : Rpc α → Option α
  | .ok value => some value
  | .failed => none
  | .timedOut => none

instance {N : Type} [Provider N] : Provider (Overheard N) where
  estimateGas n tx :=
    let r := Provider.estimateGas n.node tx
    (r.1, { n with node := r.2 })
  estimateEip1559Fees n :=
    let r := Provider.estimateEip1559Fees n.node
    (r.1, { n with node := r.2 })
  getTransactionCount n sender :=
    let r := Provider.getTransactionCount n.node sender
    (r.1, { n with node := r.2 })
  sendTransaction n tx :=
    let r := Provider.sendTransaction n.node tx
    (r.1, ⟨r.2, n.log ++ [.sent tx r.1.value]⟩)
  watch n hash :=
    let r := Provider.watch n.node hash
    (r.1, ⟨r.2, n.log ++ [.watched hash (WatchOutcome.classify r.1)]⟩)
  getTransactionReceipt n hash :=
    let r := Provider.getTransactionReceipt n.node hash
    (r.1, ⟨r.2, n.log ++ [.lookedUp hash]⟩)

namespace Exchange

/-- The outcome of a watch. -/
def outcome? : Exchange → Option WatchOutcome
  | .watched _ o => some o
  | .sent _ _ => none
  | .lookedUp _ => none

/-- The transaction of a submission. -/
def tx? : Exchange → Option TransactionRequest
  | .sent tx _ => some tx
  | .watched _ _ => none
  | .lookedUp _ => none

/-- The hash of an acknowledged submission. -/
def hash? : Exchange → Option TxHash
  | .sent _ acknowledged => acknowledged
  | .watched _ _ => none
  | .lookedUp _ => none

end Exchange

/-- How the watches of a log ended. -/
def outcomes (log : List Exchange) : List WatchOutcome := log.filterMap Exchange.outcome?

/-- The submissions of a log. -/
def submissions (log : List Exchange) : List TransactionRequest := log.filterMap Exchange.tx?

/-- The hash acknowledged last, `first` before the log. -/
def latest (first : TxHash) (log : List Exchange) : TxHash :=
  (log.filterMap Exchange.hash?).getLast?.getD first

/-- The transaction at the fees of a replacement. -/
def TransactionRequest.reprice (tx : TransactionRequest) (fees : Fees) : TransactionRequest :=
  (tx.setMaxFeePerGas fees.maxFeePerGas).setMaxPriorityFeePerGas fees.maxPriorityFeePerGas

/-! ### Runs of the loop -/

/-- Where the loop ends. -/
inductive Ending where
  | confirmed
  | gaveUp
  /-- A replacement whose send call failed or timed out. -/
  | refused
  deriving DecidableEq

/-- The ending behind a verdict; running out of fuel is none. -/
def Verdict.ending : Verdict → Option Ending
  | .confirmed => some .confirmed
  | .spent => none
  | .failing _ none _ => some .gaveUp
  | .failing _ (some _) _ => some .refused

/-- The loop that watches `hash` leaves this log and ends there. -/
inductive LoopRun : ReplacementSchedule → TransactionRequest → TxHash → List Exchange → Ending →
    Prop
  | confirmed {s s' : ReplacementSchedule} {tx : TransactionRequest} {hash : TxHash}
      {o : WatchOutcome} (move : s.nextStep o = (.confirmed, s')) :
      LoopRun s tx hash [.watched hash o] .confirmed
  | giveUp {s s' : ReplacementSchedule} {tx : TransactionRequest} {hash : TxHash}
      {o : WatchOutcome} (move : s.nextStep o = (.giveUp, s')) :
      LoopRun s tx hash [.watched hash o] .gaveUp
  | rewatch {s s' : ReplacementSchedule} {tx : TransactionRequest} {hash : TxHash}
      {o : WatchOutcome} {log : List Exchange} {e : Ending}
      (move : s.nextStep o = (.rewatch, s')) (rest : LoopRun s' tx hash log e) :
      LoopRun s tx hash (.watched hash o :: log) e
  | refused {s s' : ReplacementSchedule} {tx : TransactionRequest} {hash : TxHash}
      {o : WatchOutcome} {fees : Fees} (move : s.nextStep o = (.replace fees, s')) :
      LoopRun s tx hash [.watched hash o, .sent (tx.reprice fees) none] .refused
  | replaced {s s' : ReplacementSchedule} {tx : TransactionRequest} {hash hash' : TxHash}
      {o : WatchOutcome} {fees : Fees} {log : List Exchange} {e : Ending}
      (move : s.nextStep o = (.replace fees, s'))
        (rest : LoopRun s' (tx.reprice fees) hash' log e) :
      LoopRun s tx hash (.watched hash o :: .sent (tx.reprice fees) (some hash') :: log) e

section Loop

variable {N : Type} [Provider N]

/-- A watch is logged, whatever its outcome. -/
theorem exec_watch_bind {β : Type} (pending : TxHash) (w : Wire (Overheard N))
    (k : Except PendingTransactionError TxHash → Proc (Wire (Overheard N)) Error β) :
    ((Proc.step fun w => (.ok (ask (Provider.watch · pending) w).1,
        (ask (Provider.watch · pending) w).2)) >>= k).exec w
      = (k (Provider.watch w.node.node pending).1).exec
          ⟨⟨(Provider.watch w.node.node pending).2, w.node.log ++ [.watched pending
            (WatchOutcome.classify (Provider.watch w.node.node pending).1)]⟩, w.submitted⟩ := rfl

/-- A submission is logged, whether it is acknowledged or not. -/
theorem exec_attempt_submit_bind {β : Type} (tx : TransactionRequest) (timeout error : Error)
    (w : Wire (Overheard N)) (k : Except Error TxHash → Proc (Wire (Overheard N)) Error β)
    {answer : Rpc TxHash} {node : N}
    (h : Provider.sendTransaction w.node.node tx = (answer, node)) :
    (Proc.attempt (submit tx timeout error) >>= k).exec w
      = (k (answer.context timeout error)).exec
          ⟨⟨node, w.node.log ++ [.sent tx answer.value]⟩, w.submitted ++ [tx]⟩ := by
  have hanswer : (Provider.sendTransaction w.node.node tx).1 = answer := congrArg Prod.fst h
  have hnode : (Provider.sendTransaction w.node.node tx).2 = node := congrArg Prod.snd h
  rw [← hanswer, ← hnode]
  rfl

/-- With enough fuel the loop reaches an ending, and leaves the log of one of its runs. -/
theorem reachVerdict_run {fuel : Nat} {tx : TransactionRequest} {pending : TxHash}
    {sent : List TxHash} {schedule : ReplacementSchedule} (w : Wire (Overheard N))
    (hs : schedule.transportFailures ≤ ReplacementSchedule.maxTransportFailures)
    (hfuel : schedule.watchesLeft ≤ fuel) (hlast : sent.getLast? = some pending) :
    ∃ verdict w' log ending,
      (reachVerdict fuel tx pending sent schedule).exec w = (.ok verdict, w') ∧
        verdict.ending = some ending ∧ w'.node.log = w.node.log ++ log ∧
        LoopRun schedule tx pending log ending := by
  induction fuel generalizing tx pending sent schedule w with
  | zero =>
    simp only [ReplacementSchedule.watchesLeft,
      ReplacementSchedule.maxTransportFailures] at hs hfuel
    omega
  | succ fuel ih =>
    unfold reachVerdict
    rw [exec_watch_bind]
    generalize Provider.watch w.node.node pending = r
    rcases hnext : schedule.nextStep (WatchOutcome.classify r.1) with ⟨next, schedule'⟩
    cases next with
    | confirmed => exact ⟨_, _, _, _, rfl, rfl, rfl, .confirmed hnext⟩
    | giveUp => exact ⟨_, _, _, _, rfl, rfl, rfl, .giveUp hnext⟩
    | rewatch =>
      have hleft := ReplacementSchedule.watchesLeft_rewatch hnext
      obtain ⟨houtcome, hlt, hschedule⟩ := ReplacementSchedule.nextStep_rewatch hnext
      have hs' : schedule'.transportFailures ≤ ReplacementSchedule.maxTransportFailures := by
        rw [hschedule]
        exact hlt
      -- only a transport failure is watched again
      rcases hr : r.1 with err | hash
      · obtain ⟨verdict, w', log, ending, hexec, hending, hlog, hrun⟩ :=
          @ih tx pending sent schedule' ⟨⟨r.2, w.node.log ++ [.watched pending
            (WatchOutcome.classify r.1)]⟩, w.submitted⟩ hs' (by omega) hlast
        rw [hr] at hexec
        simp only [hlast]
        refine ⟨verdict, w', _, ending, hexec, hending, ?_, .rewatch hnext hrun⟩
        rw [hlog, List.append_assoc]
        rfl
      · rw [hr] at houtcome
        exact absurd houtcome (by simp [WatchOutcome.classify])
    | replace fees =>
      have hleft := ReplacementSchedule.watchesLeft_replace hnext hs
      have hs' : schedule'.transportFailures ≤ ReplacementSchedule.maxTransportFailures := by
        rw [(ReplacementSchedule.nextStep_replace hnext).2.2.2]
        exact Nat.zero_le _
      rcases hsending : Provider.sendTransaction r.2 (tx.reprice fees) with ⟨answer, node⟩
      simp only
      rw [show (tx.setMaxFeePerGas fees.maxFeePerGas).setMaxPriorityFeePerGas
        fees.maxPriorityFeePerGas = tx.reprice fees from rfl,
          exec_attempt_submit_bind _ _ _ _ _ hsending]
      -- the replacement becomes the pending transaction, or ends the loop
      cases answer with
      | ok hash =>
        obtain ⟨verdict, w', log, ending, hexec, hending, hlog, hrun⟩ :=
          @ih (tx.reprice fees) hash (sent ++ [hash]) schedule'
            ⟨⟨node, w.node.log ++ [.watched pending (WatchOutcome.classify r.1)]
              ++ [.sent (tx.reprice fees) (some hash)]⟩, w.submitted ++ [tx.reprice fees]⟩
            hs' (by omega) List.getLast?_concat
        refine ⟨verdict, w', _, ending, hexec, hending, ?_, .replaced hnext hrun⟩
        rw [hlog, List.append_assoc, List.append_assoc]
        rfl
      | failed =>
        refine ⟨_, _, _, _, rfl, rfl, ?_, .refused hnext⟩
        exact List.append_assoc _ _ _
      | timedOut =>
        refine ⟨_, _, _, _, rfl, rfl, ?_, .refused hnext⟩
        exact List.append_assoc _ _ _

end Loop

/-! ### The schedule along a run -/

/-- The transport errors since the last timed-out watch. -/
def failuresInARow (os : List WatchOutcome) : Nat :=
  streak (· == .transportError) (· == .timedOut) os

theorem failuresInARow_confirmed (os : List WatchOutcome) :
    failuresInARow (os ++ [.confirmed]) = failuresInARow os := streak_concat_of_neither rfl rfl

theorem failuresInARow_timedOut (os : List WatchOutcome) :
    failuresInARow (os ++ [.timedOut]) = 0 := streak_concat_of_reset rfl

theorem failuresInARow_transportError (os : List WatchOutcome) :
    failuresInARow (os ++ [.transportError]) = failuresInARow os + 1 := streak_concat_of_bad rfl rfl

namespace ReplacementSchedule

theorem after_concat (s : ReplacementSchedule) (os : List WatchOutcome) (o : WatchOutcome) :
    s.after (os ++ [o]) = ((s.after os).nextStep o).2 := by
  simp [after]

/-- What the counters and the fees are after any sequence of watches. -/
theorem after_new (policy : ReplacementPolicy) (fees : Fees) (os : List WatchOutcome) :
    (new policy fees).after os
      = ⟨policy.escalationPercent.percent, policy.maxReplacements,
          (ArtemisLight.escalate · policy.escalationPercent.percent)^[
            min (os.count .timedOut) policy.maxReplacements] fees,
          min (os.count .timedOut) policy.maxReplacements, failuresInARow os⟩ := by
  induction os using List.reverseRecOn with
  | nil => simp [after, new, failuresInARow]
  | append_singleton os o ih =>
    rw [after_concat, ih, List.count_append]
    cases o with
    | confirmed =>
      rw [failuresInARow_confirmed]
      rfl
    | transportError =>
      rw [(nextStep_transportError _).2, failuresInARow_transportError]
      rfl
    | timedOut =>
      have hcount : [WatchOutcome.timedOut].count .timedOut = 1 := rfl
      rw [failuresInARow_timedOut, hcount]
      rcases Nat.lt_or_ge (os.count .timedOut) policy.maxReplacements with hlt | hge
      · have hn : min (os.count .timedOut) policy.maxReplacements = os.count .timedOut :=
          Nat.min_eq_left (Nat.le_of_lt hlt)
        have hn' : min (os.count .timedOut + 1) policy.maxReplacements = os.count .timedOut + 1 :=
          Nat.min_eq_left hlt
        rw [nextStep_timedOut_of_lt (by simpa only [hn] using hlt), hn, hn',
          Function.iterate_succ_apply']
      · have hn : min (os.count .timedOut) policy.maxReplacements = policy.maxReplacements :=
          Nat.min_eq_right hge
        have hn' : min (os.count .timedOut + 1) policy.maxReplacements = policy.maxReplacements :=
          Nat.min_eq_right (Nat.le_succ_of_le hge)
        rw [nextStep_timedOut_of_le (by simp only [hn, Nat.le_refl]), hn, hn']

end ReplacementSchedule

/-! ### The order of the calls -/

section Order

variable (policy : ReplacementPolicy) (fees : Fees) (first : TransactionRequest × TxHash)

/-- The `k`-th replacement: the first submission, nonce included, at the fees escalated `k`
times. -/
def replacementTx (k : Nat) : TransactionRequest :=
  first.1.reprice ((escalate · policy.escalationPercent.percent)^[k] fees)

/-- Every call after `before` is followed by the one that the outcomes so far ask for. -/
def Orderly : List Exchange → List Exchange → Prop
  | _, [] => True
  | before, .watched hash o :: post =>
    hash = latest first.2 before ∧
      (match o with
        | .confirmed => post = []
        | .timedOut =>
          if (outcomes before ++ [o]).count .timedOut ≤ policy.maxReplacements then
            ∃ acknowledged rest, post = .sent (replacementTx policy fees first
              ((outcomes before ++ [o]).count .timedOut)) acknowledged :: rest
          else post = []
        | .transportError =>
          if failuresInARow (outcomes before ++ [o]) ≤ ReplacementSchedule.maxTransportFailures then
            ∃ o' rest, post = .watched hash o' :: rest
          else post = []) ∧
      Orderly (before ++ [.watched hash o]) post
  | before, .sent _ none :: post =>
    (∃ hash, before.getLast? = some (.watched hash .timedOut)) ∧ post = []
  | before, .sent tx (some hash) :: post =>
    (∃ hash, before.getLast? = some (.watched hash .timedOut)) ∧
      (∃ o rest, post = .watched hash o :: rest) ∧ Orderly (before ++ [.sent tx (some hash)]) post
  | _, .lookedUp _ :: _ => False

/-- A timed-out watch found the budget spent, or too many transport errors came in a row. -/
def Exhausted (os : List WatchOutcome) : Prop :=
  (os.getLast? = some .timedOut ∧ policy.maxReplacements < os.count .timedOut) ∨
    ReplacementSchedule.maxTransportFailures < failuresInARow os

/-- How the loop of a policy is conducted, after the submission `first` at `fees`. -/
structure Conducted (log : List Exchange) (ending : Ending) : Prop where
  watches_le : (outcomes log).length ≤ policy.maxWatches
  /-- One replacement for each timed-out watch that finds the budget unspent. -/
  replaced : submissions log = (List.range
    (min ((outcomes log).count .timedOut) policy.maxReplacements)).map fun k =>
      replacementTx policy fees first (k + 1)
  pinned : ∀ tx ∈ submissions log, tx.nonce = first.1.nonce
  orderly : Orderly policy fees first [] log
  confirmed_iff : ending = .confirmed ↔ (outcomes log).getLast? = some .confirmed
  refused_iff : ending = .refused ↔ ∃ tx, log.getLast? = some (.sent tx none)
  gaveUp_iff : ending = .gaveUp ↔ Exhausted policy (outcomes log)
  stops : ∀ os, os <+: outcomes log → Exhausted policy os → os = outcomes log
  /-- A transport error changes neither the fees nor the number of replacements. -/
  transport_keeps : ∀ os, os ++ [.transportError] <+: outcomes log →
    ((ReplacementSchedule.new policy fees).after (os ++ [.transportError])).fees
        = ((ReplacementSchedule.new policy fees).after os).fees ∧
      ((ReplacementSchedule.new policy fees).after (os ++ [.transportError])).issued
        = ((ReplacementSchedule.new policy fees).after os).issued
  counters : ∀ os, os <+: outcomes log →
    ((ReplacementSchedule.new policy fees).after os).issued ≤ policy.maxReplacements ∧
      ((ReplacementSchedule.new policy fees).after os).transportFailures
        ≤ ReplacementSchedule.maxTransportFailures + 1

variable {policy fees first}

theorem outcomes_concat_watched (log : List Exchange) (hash : TxHash) (o : WatchOutcome) :
    outcomes (log ++ [.watched hash o]) = outcomes log ++ [o] := List.filterMap_append

theorem outcomes_concat_sent (log : List Exchange) (tx : TransactionRequest)
    (acknowledged : Option TxHash) :
    outcomes (log ++ [.sent tx acknowledged]) = outcomes log := by
  simp [outcomes, Exchange.outcome?]

theorem latest_concat_watched (first : TxHash) (log : List Exchange) (hash : TxHash)
    (o : WatchOutcome) : latest first (log ++ [.watched hash o]) = latest first log := by
  simp [latest, Exchange.hash?]

theorem latest_concat_sent (first : TxHash) (log : List Exchange) (tx : TransactionRequest)
    (hash : TxHash) : latest first (log ++ [.sent tx (some hash)]) = hash := by
  simp [latest, Exchange.hash?]

section Moves

variable {os : List WatchOutcome} {o : WatchOutcome} {f : Fees} {s' : ReplacementSchedule}

theorem schedule_after {before : List Exchange} {next : NextStep}
    (h : ((ReplacementSchedule.new policy fees).after (outcomes before)).nextStep o = (next, s'))
    (hash : TxHash) :
    s' = (ReplacementSchedule.new policy fees).after (outcomes (before ++ [.watched hash o])) := by
  rw [outcomes_concat_watched, ReplacementSchedule.after_concat, h]

theorem confirmed_after {s : ReplacementSchedule} (h : s.nextStep o = (.confirmed, s')) :
    o = .confirmed := by
  cases o with
  | confirmed => rfl
  | timedOut =>
    simp only [ReplacementSchedule.nextStep] at h
    split at h <;> simp at h
  | transportError =>
    simp only [ReplacementSchedule.nextStep] at h
    split at h <;> simp at h

/-- A replacement answers a timed-out watch within the budget, at fees escalated once for each. -/
theorem replace_after
    (h : ((ReplacementSchedule.new policy fees).after os).nextStep o = (.replace f, s')) :
    o = .timedOut ∧ (os ++ [o]).count .timedOut ≤ policy.maxReplacements ∧
      f = (escalate · policy.escalationPercent.percent)^[(os ++ [o]).count .timedOut] fees := by
  rw [ReplacementSchedule.after_new] at h
  obtain ⟨rfl, hlt, rfl, -⟩ := ReplacementSchedule.nextStep_replace h
  have hcount : (os ++ [WatchOutcome.timedOut]).count .timedOut = os.count .timedOut + 1 := by simp
  have hlt' : os.count .timedOut < policy.maxReplacements := by
    simp only at hlt
    omega
  rw [hcount, Function.iterate_succ_apply', Nat.min_eq_left (Nat.le_of_lt hlt')]
  exact ⟨rfl, hlt', rfl⟩

/-- A re-watch answers a transport error within the tolerance. -/
theorem rewatch_after
    (h : ((ReplacementSchedule.new policy fees).after os).nextStep o = (.rewatch, s')) :
    o = .transportError ∧
      failuresInARow (os ++ [o]) ≤ ReplacementSchedule.maxTransportFailures := by
  rw [ReplacementSchedule.after_new] at h
  obtain ⟨rfl, hlt, -⟩ := ReplacementSchedule.nextStep_rewatch h
  rw [failuresInARow_transportError]
  exact ⟨rfl, hlt⟩

/-- The loop gives up on a timed-out watch beyond the budget, or a transport error beyond the
tolerance. -/
theorem giveUp_after
    (h : ((ReplacementSchedule.new policy fees).after os).nextStep o = (.giveUp, s')) :
    (o = .timedOut ∧ policy.maxReplacements < (os ++ [o]).count .timedOut) ∨
      (o = .transportError ∧
        ReplacementSchedule.maxTransportFailures < failuresInARow (os ++ [o])) := by
  rw [ReplacementSchedule.after_new] at h
  cases o with
  | confirmed => simp [ReplacementSchedule.nextStep] at h
  | timedOut =>
    refine Or.inl ⟨rfl, ?_⟩
    have hcount : (os ++ [WatchOutcome.timedOut]).count .timedOut = os.count .timedOut + 1 := by
      simp
    by_contra hle
    rw [ReplacementSchedule.nextStep_timedOut_of_lt (by simp only; omega)] at h
    exact absurd ((Prod.mk.inj h).1) (by simp)
  | transportError =>
    refine Or.inr ⟨rfl, ?_⟩
    rw [failuresInARow_transportError]
    simp only [ReplacementSchedule.nextStep] at h
    split at h
    case isTrue hlt => exact hlt
    case isFalse => simp at h

end Moves

/-! ### Where the loop is exhausted -/

section Prefixes

variable {before os : List WatchOutcome} {o : WatchOutcome} {e : Ending}

theorem exhausted_concat :
    Exhausted policy (os ++ [o]) ↔
      (o = .timedOut ∧ policy.maxReplacements < (os ++ [o]).count .timedOut) ∨
        ReplacementSchedule.maxTransportFailures < failuresInARow (os ++ [o]) := by
  unfold Exhausted
  rw [List.getLast?_concat, Option.some.injEq]

theorem not_exhausted_nil : ¬ Exhausted policy [] := by
  rintro (⟨h, -⟩ | h)
  · exact nomatch h
  · exact absurd h (by decide)

/-- A timed-out watch within the budget exhausts nothing. -/
theorem not_exhausted_timedOut
    (h : (os ++ [WatchOutcome.timedOut]).count .timedOut ≤ policy.maxReplacements) :
    ¬ Exhausted policy (os ++ [.timedOut]) := by
  intro hex
  rcases exhausted_concat.mp hex with ⟨-, hlt⟩ | hlt
  · omega
  · rw [failuresInARow_timedOut] at hlt
    exact absurd hlt (Nat.not_lt_zero _)

/-- The only watch of a log is the last one. -/
theorem exhausted_last (h : Exhausted policy (before ++ [o]) ↔ e = .gaveUp) :
    ∀ os, os <+: [o] → os ≠ [] → (Exhausted policy (before ++ os) ↔ os = [o] ∧ e = .gaveUp) := by
  intro os hos hne
  rcases List.prefix_cons_iff.mp hos with rfl | ⟨os', rfl, hos'⟩
  · exact absurd rfl hne
  · obtain rfl := List.prefix_nil.mp hos'
    rw [h]
    exact (and_iff_right rfl).symm

/-- A watch that exhausts nothing is followed by others. -/
theorem exhausted_cons {rest : List WatchOutcome} (hstep : ¬ Exhausted policy (before ++ [o]))
    (hrest : rest ≠ [])
    (ih : ∀ os, os <+: rest → os ≠ [] →
      (Exhausted policy (before ++ [o] ++ os) ↔ os = rest ∧ e = .gaveUp)) :
    ∀ os, os <+: o :: rest → os ≠ [] →
      (Exhausted policy (before ++ os) ↔ os = o :: rest ∧ e = .gaveUp) := by
  intro os hos hne
  rcases List.prefix_cons_iff.mp hos with rfl | ⟨os', rfl, hos'⟩
  · exact absurd rfl hne
  · rcases List.eq_nil_or_concat' os' with rfl | hne'
    · refine iff_of_false hstep ?_
      rintro ⟨hnil, -⟩
      exact hrest (List.cons.inj hnil).2.symm
    · have hne' : os' ≠ [] := by
        obtain ⟨L, b, rfl⟩ := hne'
        simp
      have hih := ih os' hos' hne'
      rw [List.append_assoc] at hih
      rw [List.cons.injEq, and_iff_right rfl]
      exact hih

end Prefixes

namespace LoopRun

variable {s : ReplacementSchedule} {tx : TransactionRequest} {hash : TxHash} {log : List Exchange}
  {e : Ending}

/-- The first call of the loop is a watch. -/
theorem starts (h : LoopRun s tx hash log e) : ∃ o rest, log = .watched hash o :: rest := by
  cases h <;> exact ⟨_, _, rfl⟩

theorem outcomes_ne_nil (h : LoopRun s tx hash log e) : outcomes log ≠ [] := by
  obtain ⟨o, rest, rfl⟩ := h.starts
  exact List.cons_ne_nil _ _

/-- Every watch uses up one of those left. -/
theorem length_outcomes_le (h : LoopRun s tx hash log e)
    (hs : s.transportFailures ≤ ReplacementSchedule.maxTransportFailures) :
    (outcomes log).length ≤ s.watchesLeft := by
  have hone : 1 ≤ s.watchesLeft := by
    simp only [ReplacementSchedule.watchesLeft, ReplacementSchedule.maxTransportFailures] at hs ⊢
    omega
  induction h with
  | confirmed _ => exact hone
  | giveUp _ => exact hone
  | refused _ => exact hone
  | @rewatch s s' _ _ _ log _ move _ ih =>
    have hleft := ReplacementSchedule.watchesLeft_rewatch move
    obtain ⟨-, hlt, hs'⟩ := ReplacementSchedule.nextStep_rewatch move
    have hle : s'.transportFailures ≤ ReplacementSchedule.maxTransportFailures := by
      rw [hs']
      exact hlt
    have hrest := ih hle (by
      simp only [ReplacementSchedule.watchesLeft, ReplacementSchedule.maxTransportFailures] at hle ⊢
      omega)
    show (outcomes log).length + 1 ≤ _
    omega
  | @replaced s s' _ _ _ _ _ log _ move _ ih =>
    have hleft := ReplacementSchedule.watchesLeft_replace move hs
    have hle : s'.transportFailures ≤ ReplacementSchedule.maxTransportFailures := by
      rw [(ReplacementSchedule.nextStep_replace move).2.2.2]
      exact Nat.zero_le _
    have hrest := ih hle (by
      simp only [ReplacementSchedule.watchesLeft, ReplacementSchedule.maxTransportFailures] at hle ⊢
      omega)
    show (outcomes log).length + 1 ≤ _
    omega

/-- The loop submits what the schedule makes of the outcomes. -/
theorem submissions_eq (h : LoopRun s tx hash log e) :
    submissions log = (s.replacements (outcomes log)).map tx.reprice := by
  have hstep : ∀ {s s' : ReplacementSchedule} {o : WatchOutcome} {next : NextStep}
      (os : List WatchOutcome), s.nextStep o = (next, s') →
        s.replacements (o :: os) = next.replacement.toList ++ s'.replacements os := by
    intro s s' o next os hmove
    show _ ++ _ = _
    rw [hmove]
  induction h with
  | @confirmed s _ tx _ o move =>
    show [] = (s.replacements [o]).map tx.reprice
    rw [hstep [] move]
    rfl
  | @giveUp s _ tx _ o move =>
    show [] = (s.replacements [o]).map tx.reprice
    rw [hstep [] move]
    rfl
  | @rewatch s _ tx _ o log _ move _ ih =>
    show submissions log = (s.replacements (o :: outcomes log)).map tx.reprice
    rw [hstep _ move, ih]
    rfl
  | @refused s _ tx _ o fees move =>
    show [tx.reprice fees] = (s.replacements [o]).map tx.reprice
    rw [hstep [] move]
    rfl
  | @replaced s _ tx _ _ o fees log _ move _ ih =>
    show tx.reprice fees :: submissions log = (s.replacements (o :: outcomes log)).map tx.reprice
    rw [hstep _ move, ih]
    rfl

/-- What the outcomes so far say about a run that goes on from them. -/
theorem orderly (h : LoopRun s tx hash log e) {before : List Exchange}
    (hs : s = (ReplacementSchedule.new policy fees).after (outcomes before))
    (htx : tx.reprice = first.1.reprice) (hhash : hash = latest first.2 before) :
    Orderly policy fees first before log := by
  -- the schedule after the exchanges so far decides what each move may be
  induction h generalizing before with
  | @confirmed s s' tx hash o move =>
    obtain rfl := confirmed_after move
    exact ⟨hhash, rfl, trivial⟩
  | @giveUp s s' tx hash o move =>
    subst hs
    rcases giveUp_after move with ⟨rfl, hlt⟩ | ⟨rfl, hlt⟩
    · refine ⟨hhash, ?_, trivial⟩
      show ite _ _ _
      rw [if_neg (Nat.not_le_of_lt hlt)]
    · refine ⟨hhash, ?_, trivial⟩
      show ite _ _ _
      rw [if_neg (Nat.not_le_of_lt hlt)]
  | @rewatch s s' tx hash o log e move rest ih =>
    subst hs
    have hs' := schedule_after move hash
    obtain ⟨rfl, hle⟩ := rewatch_after move
    have hlatest : hash = latest first.2 (before ++ [.watched hash .transportError]) := by
      rw [latest_concat_watched]
      exact hhash
    refine ⟨hhash, ?_, ih hs' htx hlatest⟩
    show ite _ _ _
    rw [if_pos hle]
    exact rest.starts
  | @refused s s' tx hash o f move =>
    subst hs
    obtain ⟨rfl, hle, rfl⟩ := replace_after move
    refine ⟨hhash, ?_, ⟨hash, List.getLast?_concat⟩, rfl⟩
    show ite _ _ _
    rw [if_pos hle, htx]
    exact ⟨_, _, rfl⟩
  | @replaced s s' tx hash hash' o f log e move rest ih =>
    subst hs
    have hs' := schedule_after move hash
    obtain ⟨rfl, hle, rfl⟩ := replace_after move
    have htx' : ∀ f, (tx.reprice f).reprice = first.1.reprice := by
      intro f
      rw [← htx]
      rfl
    rw [← outcomes_concat_sent _ (tx.reprice _) (some hash')] at hs'
    have hrest := ih hs' (htx' _) (latest_concat_sent _ _ _ _).symm
    refine ⟨hhash, ?_, ⟨hash, List.getLast?_concat⟩, rest.starts, hrest⟩
    show ite _ _ _
    rw [if_pos hle, htx]
    exact ⟨_, _, rfl⟩

/-- The loop is exhausted at its end, if it gives up, and nowhere else. -/
theorem exhausted_iff (h : LoopRun s tx hash log e) (before : List WatchOutcome)
    (hs : s = (ReplacementSchedule.new policy fees).after before)
    (hbefore : failuresInARow before ≤ ReplacementSchedule.maxTransportFailures) :
    ∀ os, os <+: outcomes log → os ≠ [] →
      (Exhausted policy (before ++ os) ↔ os = outcomes log ∧ e = .gaveUp) := by
  -- the budget is spent after a move exactly if the loop gives up there
  induction h generalizing before with
  | @confirmed s s' tx hash o move =>
    obtain rfl := confirmed_after move
    apply exhausted_last
    refine iff_of_false (fun hex => ?_) (by simp)
    rcases exhausted_concat.mp hex with ⟨ho, -⟩ | hlt
    · exact nomatch ho
    · rw [failuresInARow_confirmed] at hlt
      omega
  | @giveUp s s' tx hash o move =>
    subst hs
    apply exhausted_last
    refine iff_of_true (exhausted_concat.mpr ?_) rfl
    rcases giveUp_after move with hspent | ⟨-, hlt⟩
    · exact Or.inl hspent
    · exact Or.inr hlt
  | @rewatch s s' tx hash o log e move rest ih =>
    subst hs
    obtain ⟨rfl, hle⟩ := rewatch_after move
    have hs' : s' = (ReplacementSchedule.new policy fees).after (before ++ [.transportError]) := by
      rw [ReplacementSchedule.after_concat, move]
    refine exhausted_cons (fun hex => ?_) rest.outcomes_ne_nil (ih _ hs' hle)
    rcases exhausted_concat.mp hex with ⟨ho, -⟩ | hlt
    · exact nomatch ho
    · omega
  | @refused s s' tx hash o f move =>
    subst hs
    obtain ⟨rfl, hle, -⟩ := replace_after move
    apply exhausted_last
    exact iff_of_false (not_exhausted_timedOut hle) (by simp)
  | @replaced s s' tx hash hash' o f log e move rest ih =>
    subst hs
    obtain ⟨rfl, hle, -⟩ := replace_after move
    have hs' : s' = (ReplacementSchedule.new policy fees).after (before ++ [.timedOut]) := by
      rw [ReplacementSchedule.after_concat, move]
    refine exhausted_cons (not_exhausted_timedOut hle) rest.outcomes_ne_nil (ih _ hs' ?_)
    rw [failuresInARow_timedOut]
    exact Nat.zero_le _

theorem getLast?_outcomes_cons (h : LoopRun s tx hash log e) (o : WatchOutcome) :
    (o :: outcomes log).getLast? = (outcomes log).getLast? := by
  obtain ⟨o', rest, rfl⟩ := h.starts
  exact List.getLast?_cons_cons

theorem getLast?_cons (h : LoopRun s tx hash log e) (call : Exchange) :
    (call :: log).getLast? = log.getLast? := by
  obtain ⟨o', rest, rfl⟩ := h.starts
  exact List.getLast?_cons_cons

/-- The loop ends confirmed exactly when its last watch is. -/
theorem confirmed_iff (h : LoopRun s tx hash log e) :
    e = .confirmed ↔ (outcomes log).getLast? = some .confirmed := by
  induction h with
  | confirmed move =>
    obtain rfl := confirmed_after move
    exact iff_of_true rfl rfl
  | giveUp move =>
    refine iff_of_false (by simp) ?_
    rintro ⟨⟩
    exact nomatch move
  | rewatch _ rest ih =>
    rw [ih]
    exact iff_of_eq (congrArg (· = _) (rest.getLast?_outcomes_cons _).symm)
  | refused move =>
    refine iff_of_false (by simp) ?_
    rintro ⟨⟩
    exact nomatch move
  | replaced _ rest ih =>
    rw [ih]
    exact iff_of_eq (congrArg (· = _) (rest.getLast?_outcomes_cons _).symm)

/-- The loop ends refused exactly when its last call is a submission, which is not acknowledged. -/
theorem refused_iff (h : LoopRun s tx hash log e) :
    e = .refused ↔ ∃ tx, log.getLast? = some (.sent tx none) := by
  induction h with
  | confirmed _ => exact iff_of_false (by simp) (by simp)
  | giveUp _ => exact iff_of_false (by simp) (by simp)
  | rewatch _ rest ih => rw [rest.getLast?_cons, ih]
  | refused _ => exact iff_of_true rfl ⟨_, rfl⟩
  | replaced _ rest ih =>
    rw [ih, List.getLast?_cons_cons, rest.getLast?_cons]

end LoopRun

/-! ### The whole loop -/

/-- While the loop runs, it tolerates the transport errors so far, or one more ends it. -/
theorem LoopRun.failuresInARow_le {log : List Exchange} {e : Ending}
    (h : LoopRun (ReplacementSchedule.new policy fees) first.1 first.2 log e)
    {os : List WatchOutcome} (hos : os <+: outcomes log) :
    failuresInARow os ≤ ReplacementSchedule.maxTransportFailures + 1 := by
  have hexhausted := h.exhausted_iff [] rfl (Nat.zero_le _)
  rcases List.eq_nil_or_concat' os with rfl | ⟨os', o, rfl⟩
  · exact Nat.zero_le _
  -- before its last watch the loop was not exhausted
  have hle : failuresInARow os' ≤ ReplacementSchedule.maxTransportFailures := by
    by_contra hlt
    have hex : Exhausted policy os' := Or.inr (Nat.lt_of_not_le hlt)
    have hne : os' ≠ [] := by
      rintro rfl
      exact not_exhausted_nil hex
    have hwhole := ((hexhausted os' ((List.prefix_append _ _).trans hos) hne).mp hex).1
    have hlength := hos.length_le
    rw [← hwhole, List.length_append] at hlength
    exact absurd hlength (by simp)
  cases o with
  | confirmed =>
    rw [failuresInARow_confirmed]
    omega
  | timedOut =>
    rw [failuresInARow_timedOut]
    exact Nat.zero_le _
  | transportError =>
    rw [failuresInARow_transportError]
    omega

/-- Every run of the loop of a policy is conducted as the policy asks. -/
theorem LoopRun.conducted {log : List Exchange} {e : Ending}
    (h : LoopRun (ReplacementSchedule.new policy fees) first.1 first.2 log e) :
    Conducted policy fees first log e := by
  have hexhausted := h.exhausted_iff [] rfl (Nat.zero_le _)
  have hsubmissions : submissions log = (List.range
      (min ((outcomes log).count .timedOut) policy.maxReplacements)).map fun k =>
        replacementTx policy fees first (k + 1) := by
    rw [h.submissions_eq, ReplacementSchedule.replacements_eq_iterate, ← List.range_map_iterate,
      List.map_map]
    rfl
  refine ⟨?_, hsubmissions, ?_, h.orderly rfl rfl rfl, h.confirmed_iff, h.refused_iff, ?_, ?_, ?_,
    ?_⟩
  · have hle := h.length_outcomes_le (Nat.zero_le _)
    simp only [ReplacementSchedule.watchesLeft, ReplacementSchedule.new] at hle
    simp only [ReplacementPolicy.maxWatches]
    rw [Nat.succ_mul]
    exact hle
  · intro tx htx
    rw [hsubmissions] at htx
    obtain ⟨k, -, rfl⟩ := List.mem_map.mp htx
    rfl
  · have hwhole := hexhausted _ (List.prefix_refl _) h.outcomes_ne_nil
    rw [List.nil_append] at hwhole
    rw [hwhole]
    exact (and_iff_right rfl).symm
  · intro os hos hex
    have hne : os ≠ [] := by
      rintro rfl
      exact not_exhausted_nil hex
    exact ((hexhausted os hos hne).mp hex).1
  · intro os _
    rw [ReplacementSchedule.after_concat, (ReplacementSchedule.nextStep_transportError _).2]
    exact ⟨rfl, rfl⟩
  · intro os hos
    rw [ReplacementSchedule.after_new]
    exact ⟨Nat.min_le_right _ _, h.failuresInARow_le hos⟩

end Order

section Whole

variable {N : Type} [Provider N]

/-- The first submission is made at a pinned nonce. -/
theorem submitFirst_pinned (tx : TransactionRequest) :
    Holds (fun _ : Wire N => True) (submitFirst tx)
      fun r _ => ∀ first, r = .ok first → first.1.nonce.isSome := by
  unfold submitFirst
  rcases tx.sender with _ | sender
  · exact Holds.throw fun _ _ first h => nomatch h
  · refine Holds.bind_right (fun _ _ _ h => nomatch h) fun nonce => ?_
    refine Holds.bind_right (fun _ _ _ h => nomatch h) fun pending => Holds.pure fun _ _ first h =>
      ?_
    obtain rfl := Except.ok.inj h
    rfl

/-- Whatever the node answers: once the first submission is acknowledged, the loop ends within the
watches of the policy, in a confirmation, by giving up or by a refused replacement, and it is
conducted as the policy asks. -/
theorem replacement_loop_conducted (node : N) (tx : TransactionRequest) (fees : Fees)
    (policy : ReplacementPolicy) {first : TransactionRequest × TxHash} {w : Wire (Overheard N)}
    (hfirst : (submitFirst tx).exec ⟨⟨node, []⟩, []⟩ = (.ok first, w)) :
    first.1.nonce.isSome ∧ ∃ verdict ending w' log,
      (reachVerdict policy.maxWatches first.1 first.2 [first.2]
          (ReplacementSchedule.new policy fees)).exec w = (.ok verdict, w') ∧
        (sendWithReplacement tx fees policy).exec ⟨⟨node, []⟩, []⟩ = verdict.settle.exec w' ∧
        verdict.ending = some ending ∧ w'.node.log = w.node.log ++ log ∧
        Conducted policy fees first log ending := by
  have hpinned := submitFirst_pinned tx (⟨⟨node, []⟩, []⟩ : Wire (Overheard N)) trivial
  rw [hfirst] at hpinned
  refine ⟨hpinned first rfl, ?_⟩
  have hfuel : (ReplacementSchedule.new policy fees).watchesLeft ≤ policy.maxWatches := by
    simp only [ReplacementSchedule.watchesLeft, ReplacementSchedule.new,
      ReplacementPolicy.maxWatches, Nat.succ_mul]
    exact Nat.le_refl _
  obtain ⟨verdict, w', log, ending, hexec, hending, hlog, hrun⟩ :=
    @reachVerdict_run N _ _ first.1 first.2 [first.2] _ w (Nat.zero_le _) hfuel rfl
  refine ⟨verdict, ending, w', log, hexec, ?_, hending, hlog, hrun.conducted⟩
  rw [sendWithReplacement_eq, Proc.exec_bind_ok hfirst, watchLoop_eq, Proc.exec_bind_ok hexec]

end Whole

/-! ### A node with given outcomes -/

/-- A node that accepts every submission and whose watches end as listed. -/
structure OutcomeNode where
  outcomes : Nat → WatchOutcome
  watches : Nat

instance : Provider OutcomeNode where
  estimateGas n _ := (.ok 21000, n)
  estimateEip1559Fees n := (.ok ⟨0, 0⟩, n)
  getTransactionCount n _ := (.ok 0, n)
  sendTransaction n _ := (.ok 0, n)
  watch n hash :=
    (match n.outcomes n.watches with
      | .confirmed => .ok hash
      | .timedOut => .error .watchTimeout
      | .transportError => .error .other, { n with watches := n.watches + 1 })
  getTransactionReceipt n _ := (.ok none, n)

/-- Every watch fails in the transport but the third, which times out. -/
def flakyNode : OutcomeNode := ⟨fun n => if n = 2 then .timedOut else .transportError, 0⟩

/-- The loop is conducted as the policy asks on a flaky node. -/
theorem flaky_loop_conducted :
    ∃ first, ∃ w : Wire (Overheard OutcomeNode),
      (submitFirst (lossyTx 100 10)).exec ⟨⟨flakyNode, []⟩, []⟩ = (.ok first, w) ∧
      first.1.nonce.isSome ∧ ∃ verdict ending w' log,
        (reachVerdict lossyPolicy.maxWatches first.1 first.2 [first.2]
            (ReplacementSchedule.new lossyPolicy lossyFees)).exec w = (.ok verdict, w') ∧
          (sendWithReplacement (lossyTx 100 10) lossyFees lossyPolicy).exec
            ⟨⟨flakyNode, []⟩, []⟩ = verdict.settle.exec w' ∧
          verdict.ending = some ending ∧ w'.node.log = w.node.log ++ log ∧
          Conducted lossyPolicy lossyFees first log ending :=
  ⟨_, _, rfl, replacement_loop_conducted flakyNode (lossyTx 100 10) lossyFees lossyPolicy rfl⟩

end ArtemisLight
