import ArtemisLight.Executors.Equiv.Schedule

/-!
## The gas bid over the replacement loop

The maximum fee of the first submission is the break-even price at the bid's share; the replacement
schedule raises it without looking at the bid again.  `bidHeld_iff`: the bid is held by every
submission, whatever the node does, exactly when the fee the schedule is heading for is still at
most the break-even price (or nothing is ever submitted).
-/

namespace ArtemisLight

section Submissions

variable {N α β : Type} {C : TransactionRequest → Prop}

/-- Whatever the procedure returns, everything it submits satisfies `C`. -/
def Submits (C : TransactionRequest → Prop) (m : Proc (Wire N) Error α) : Prop :=
  Preserves (fun w => ∀ tx ∈ w.submitted, C tx) m

theorem submits_ask (call : N → α × N) (f : α → Except Error β) :
    Submits C (Proc.step fun w => (f (ask call w).1, (ask call w).2)) := fun _ hw => hw

theorem submits_request (call : N → Rpc α × N) (timeout error : Error) :
    Submits C (request call timeout error) := submits_ask call fun r => r.context timeout error

theorem Submits.attempt {m : Proc (Wire N) Error α} (h : Submits C m) : Submits C m.attempt := h

variable [Provider N]

theorem submits_submit {tx : TransactionRequest} (h : C tx) (timeout error : Error) :
    Submits C (N := N) (submit tx timeout error) := by
  intro w hw tx' htx'
  rcases List.mem_append.mp htx' with htx' | htx'
  · exact hw tx' htx'
  · rwa [List.mem_singleton.mp htx']

/-- A receipt sweep submits nothing. -/
theorem anyMined_submitted (sent : List TxHash) (w : Wire N) :
    (anyMined sent w).2.submitted = w.submitted := by
  induction sent generalizing w with
  | nil => rfl
  | cons hash sent ih =>
    have hask : (ask (Provider.getTransactionReceipt · hash) w).2.submitted = w.submitted := rfl
    unfold anyMined
    split
    case h_1 h =>
      rw [h] at hask
      exact hask
    all_goals
      rename_i h
      rw [h] at hask
      rw [ih]
      exact hask

theorem unlessMined_submitted (sent : List TxHash) (e : Error) (w : Wire N) :
    ((unlessMined sent e).exec w).2.submitted = w.submitted := by
  unfold unlessMined
  rw [Proc.exec_step_bind, ← anyMined_submitted sent w]
  cases (anyMined sent w).1 <;> rfl

theorem submits_unlessMined (sent : List TxHash) (e : Error) :
    Submits C (N := N) (unlessMined sent e) := by
  intro w hw
  rwa [unlessMined_submitted]

end Submissions

/-! ### The bound -/

/-- The maximum fee of the transaction is set and at most `price`. -/
def Capped (price : Nat) (tx : TransactionRequest) : Prop :=
  ∃ fee, tx.maxFeePerGas = some fee ∧ fee ≤ price

theorem capped_setFees {price fee : Nat} (h : fee ≤ price) (tx : TransactionRequest)
    (priorityFee : Nat) :
    Capped price ((tx.setMaxFeePerGas fee).setMaxPriorityFeePerGas priorityFee) := ⟨fee, rfl, h⟩

section Loop

variable {N : Type} [Provider N] {price : Nat}

/-- The loop stays below any price that the schedule is not heading above. -/
theorem submits_watchLoop {fuel : Nat} {tx : TransactionRequest} {pending : TxHash}
    {sent : List TxHash} {schedule : ReplacementSchedule} (h100 : 100 ≤ schedule.escalationPercent)
    (hlast : schedule.lastFee ≤ price) :
    Submits (Capped price) (watchLoop (N := N) fuel tx pending sent schedule) := by
  induction fuel generalizing tx pending sent schedule with
  | zero => exact Preserves.pure _
  | succ fuel ih =>
    refine Preserves.bind (submits_ask _ .ok) fun watched => ?_
    rcases hnext : schedule.nextStep (WatchOutcome.classify watched) with ⟨next, schedule'⟩
    cases next with
    | confirmed => exact Preserves.pure _
    | giveUp => exact submits_unlessMined _ _
    | rewatch =>
      obtain ⟨-, -, hs⟩ := ReplacementSchedule.nextStep_rewatch hnext
      cases watched with
      | ok _ => exact Preserves.throw _
      | error _ =>
        rcases hsent : sent.getLast? with _ | hash
        · exact Preserves.throw _
        · exact ih (by rw [hs]; exact h100)
            (by rwa [ReplacementSchedule.lastFee_rewatch hnext])
    | replace fees =>
      obtain ⟨-, -, -, hs⟩ := ReplacementSchedule.nextStep_replace hnext
      have h100' : 100 ≤ schedule'.escalationPercent := by rw [hs]; exact h100
      have hlast' : schedule'.lastFee ≤ price := by
        rwa [ReplacementSchedule.lastFee_replace hnext]
      have hfee : fees.maxFeePerGas ≤ price := by
        have := ReplacementSchedule.maxFee_le_lastFee h100'
        rw [hs] at this
        rw [hs] at hlast'
        exact this.trans hlast'
      refine Preserves.bind (submits_submit (capped_setFees hfee _ _) _ _).attempt fun resent => ?_
      cases resent with
      | ok hash => exact ih h100' hlast'
      | error e => exact submits_unlessMined _ _

theorem submits_sendWithReplacement {tx : TransactionRequest} {fees : Fees}
    {policy : ReplacementPolicy} (htx : tx.maxFeePerGas = some fees.maxFeePerGas)
    (hlast : raised policy.escalationPercent.percent policy.maxReplacements fees.maxFeePerGas
      ≤ price) :
    Submits (Capped price) (sendWithReplacement (N := N) tx fees policy) := by
  have h100 : 100 ≤ policy.escalationPercent.percent :=
    le_trans (by omega) policy.escalationPercent.min_le
  have hfirst : fees.maxFeePerGas ≤ price :=
    (raised_mono fees.fits h100 (Nat.zero_le _)).trans hlast
  unfold sendWithReplacement
  rcases tx.sender with _ | sender
  · exact Preserves.throw _
  · refine Preserves.bind (submits_request _ _ _) fun nonce => ?_
    refine Preserves.bind (submits_submit ⟨_, htx, hfirst⟩ _ _) fun pending => ?_
    exact submits_watchLoop h100 hlast

end Loop

/-! ### A node that never mines -/

/-- A node that accepts every submission and mines none. -/
structure StuckNode where
  gas : Nat

instance : Provider StuckNode where
  estimateGas n _ := (.ok n.gas, n)
  estimateEip1559Fees n := (.ok ⟨0, 0⟩, n)
  getTransactionCount n _ := (.ok 0, n)
  sendTransaction n _ := (.ok 0, n)
  watch n _ := (.error .watchTimeout, n)
  getTransactionReceipt n _ := (.ok none, n)

namespace StuckNode

/-- Some submitted transaction has the maximum fee `fee`. -/
def Paid (fee : Nat) (w : Wire StuckNode) : Prop :=
  ∃ tx ∈ w.submitted, tx.maxFeePerGas = some fee

section Calls

variable (w : Wire StuckNode) (timeout error : Error)

theorem request_estimateGas (tx : TransactionRequest) :
    (request (Provider.estimateGas · tx) timeout error).exec w = (.ok w.node.gas, w) := rfl

theorem request_estimateEip1559Fees :
    (request Provider.estimateEip1559Fees timeout error).exec w = (.ok ⟨0, 0⟩, w) := rfl

theorem request_getTransactionCount (sender : Address) :
    (request (Provider.getTransactionCount · sender) timeout error).exec w = (.ok 0, w) := rfl

theorem submit_exec (tx : TransactionRequest) :
    (submit tx timeout error).exec w = (.ok 0, ⟨w.node, w.submitted ++ [tx]⟩) := rfl

end Calls

theorem watch (pending : TxHash) (w : Wire StuckNode) :
    ask (Provider.watch · pending) w = (.error .watchTimeout, w) := rfl

/-- The loop goes through the whole schedule. -/
theorem paid_watchLoop {n fuel : Nat} {tx : TransactionRequest} {pending : TxHash}
    {sent : List TxHash} {schedule : ReplacementSchedule} {w : Wire StuckNode}
    (hn : schedule.maxReplacements - schedule.issued = n) (hfuel : n < fuel)
    (h : Paid schedule.fees.maxFeePerGas w) :
    Paid schedule.lastFee ((watchLoop fuel tx pending sent schedule).exec w).2 := by
  induction n generalizing fuel tx pending sent schedule w with
  | zero =>
    obtain ⟨fuel, rfl⟩ : ∃ f, fuel = f + 1 := ⟨fuel - 1, by omega⟩
    have hstep :
      schedule.nextStep .timedOut = (.giveUp, { schedule with transportFailures := 0 }) := by
      simp only [ReplacementSchedule.nextStep, ReplacementSchedule.escalate]
      rw [if_pos (by omega)]
    have hlast : schedule.lastFee = schedule.fees.maxFeePerGas := by
      unfold ReplacementSchedule.lastFee
      rw [hn, raised_zero]
    obtain ⟨tx', htx', hfee⟩ := h
    refine ⟨tx', ?_, by rw [hlast]; exact hfee⟩
    unfold watchLoop
    rw [Proc.exec_step_bind, watch]
    simp only [WatchOutcome.classify, hstep, unlessMined_submitted]
    exact htx'
  | succ n ih =>
    obtain ⟨fuel, rfl⟩ : ∃ f, fuel = f + 1 := ⟨fuel - 1, by omega⟩
    rcases hnext : schedule.nextStep .timedOut with ⟨next, schedule'⟩
    have hfees : next = .replace schedule'.fees ∧
        schedule'.maxReplacements - schedule'.issued = n := by
      simp only [ReplacementSchedule.nextStep, ReplacementSchedule.escalate] at hnext
      rw [if_neg (by omega), Prod.mk.injEq] at hnext
      obtain ⟨rfl, rfl⟩ := hnext
      exact ⟨rfl, by simp only; omega⟩
    obtain ⟨rfl, hn'⟩ := hfees
    rw [← ReplacementSchedule.lastFee_replace hnext]
    unfold watchLoop
    rw [Proc.exec_step_bind, watch]
    simp only [WatchOutcome.classify, hnext]
    rw [Proc.exec_attempt_bind]
    exact ih hn' (by omega) ⟨_, List.mem_append_right _ (List.mem_singleton.mpr rfl), rfl⟩

end StuckNode

/-! ### The bid -/

/-- The maximum fee of the last submission the executor may make for a bid: the break-even price at
the bid's share, raised by every replacement the policy allows. -/
def MempoolExecutor.lastBid (executor : MempoolExecutor) (bid : GasBidInfo) (gasUsage : Nat) :
    Nat :=
  let first := scalePercent (bid.totalProfit / gasUsage) bid.bidPercentage
  executor.replacement.elim first fun policy =>
    raised policy.escalationPercent.percent policy.maxReplacements first

/-- Every node that estimates `gasUsage` for the action sees only submissions that cost, at their
maximum fee, no more than the bid's profit. -/
def MempoolExecutor.BidHeld (executor : MempoolExecutor) (action : SubmitTxToMempool)
    (bid : GasBidInfo) (gasUsage : Nat) : Prop :=
  ∀ (N : Type) [Provider N] (node : N),
    (Provider.estimateGas node action.tx).1 = .ok gasUsage →
      ∀ tx ∈ ((executor.execute action).exec ⟨node, []⟩).2.submitted,
        ∃ fee, tx.maxFeePerGas = some fee ∧ fee * gasUsage ≤ bid.totalProfit

section Execute

variable {executor : MempoolExecutor} {action : SubmitTxToMempool} {bid : GasBidInfo}
  {gasUsage : Nat}

/-- A price caps a transaction exactly when it pays for the gas within the profit. -/
theorem capped_breakeven {tx : TransactionRequest} (hgas : 0 < gasUsage) (profit : Nat) :
    Capped (profit / gasUsage) tx ↔
      ∃ fee, tx.maxFeePerGas = some fee ∧ fee * gasUsage ≤ profit := by
  simp only [Capped, Nat.le_div_iff_mul_le hgas]

/-- What `execute` does for a bid that is not refused. -/
theorem execute_of_bid {N : Type} [Provider N] (hbid : action.gasBidInfo = some bid)
    (hpct : bid.bidPercentage ≤ 100) :
    executor.execute (N := N) action = (do
      let gasUsage ← request (Provider.estimateGas · action.tx) "Timeout estimating gas usage"
        "Error estimating gas usage"
      let estimate ← request Provider.estimateEip1559Fees "Timeout estimating EIP-1559 fees"
        "Error estimating EIP-1559 fees"
      let fees ← Proc.ofExcept
        (price1559 estimate gasUsage executor.priorityFeeBumpPercent (some bid))
      executor.sendPriced action.tx gasUsage fees) := by
  unfold MempoolExecutor.execute
  rw [hbid]
  simp only
  rw [if_neg (by omega)]

/-- The bid holds if it holds of what is sent at the price of the bid. -/
theorem bidHeld_of_submits (hbid : action.gasBidInfo = some bid) (hpct : bid.bidPercentage ≤ 100)
    (hgas : 0 < gasUsage)
    (h : ∀ (N : Type) [Provider N] (fees : Fees),
      fees.maxFeePerGas = scalePercent (bid.totalProfit / gasUsage) bid.bidPercentage →
        Submits (Capped (bid.totalProfit / gasUsage))
          (executor.sendPriced (N := N) action.tx gasUsage fees)) :
    executor.BidHeld action bid gasUsage := by
  intro N _ node hnode
  simp only [← capped_breakeven hgas]
  have hgasUsage : (request (Provider.estimateGas · action.tx) "Timeout estimating gas usage"
      "Error estimating gas usage").exec (⟨node, []⟩ : Wire N)
      = (.ok gasUsage, ⟨(Provider.estimateGas node action.tx).2, []⟩) := by
    simp only [request, Proc.exec_step, ask, hnode, Rpc.context]
  rw [execute_of_bid hbid hpct, Proc.exec_bind_ok hgasUsage]
  refine Preserves.bind (submits_request _ _ _) (fun estimate => ?_) _ (by simp)
  rw [price1559_bid hpct hgas, Proc.ofExcept_ok_bind]
  exact h N _ rfl

/-- The bid holds when the schedule is not heading above the break-even price. -/
theorem bidHeld_of_le (hbid : action.gasBidInfo = some bid) (hpct : bid.bidPercentage ≤ 100)
    (hgas : 0 < gasUsage) (h : executor.lastBid bid gasUsage ≤ bid.totalProfit / gasUsage) :
    executor.BidHeld action bid gasUsage := by
  refine bidHeld_of_submits hbid hpct hgas fun N _ fees hfees => ?_
  unfold MempoolExecutor.sendPriced
  simp only [MempoolExecutor.lastBid, ← hfees] at h
  rcases hpolicy : executor.replacement with _ | policy
  · rw [hpolicy] at h
    refine Preserves.bind (submits_submit (capped_setFees h _ _) _ _) fun _ => ?_
    exact Preserves.pure _
  · rw [hpolicy] at h
    exact submits_sendWithReplacement rfl h

/-- Without a sender no replaceable transaction is submitted. -/
theorem bidHeld_of_sender (hbid : action.gasBidInfo = some bid) (hpct : bid.bidPercentage ≤ 100)
    (hgas : 0 < gasUsage) (hpolicy : executor.replacement.isSome)
    (hsender : action.tx.sender = none) : executor.BidHeld action bid gasUsage := by
  refine bidHeld_of_submits hbid hpct hgas fun N _ fees _ => ?_
  obtain ⟨policy, hpolicy⟩ := Option.isSome_iff_exists.mp hpolicy
  unfold MempoolExecutor.sendPriced
  simp only [hpolicy]
  unfold sendWithReplacement
  simp only [TransactionRequest.setMaxPriorityFeePerGas, TransactionRequest.setMaxFeePerGas,
    TransactionRequest.setGasLimit, hsender]
  exact Preserves.throw _

/-- The stuck node sees the last submission of the schedule. -/
theorem StuckNode.paid_execute (hbid : action.gasBidInfo = some bid)
    (hpct : bid.bidPercentage ≤ 100) (hgas : 0 < gasUsage)
    (hsender : executor.replacement.isSome → action.tx.sender ≠ none) :
    Paid (executor.lastBid bid gasUsage) ((executor.execute action).exec ⟨⟨gasUsage⟩, []⟩).2 := by
  rw [execute_of_bid hbid hpct, Proc.exec_bind_ok (request_estimateGas _ _ _ _),
    Proc.exec_bind_ok (request_estimateEip1559Fees _ _ _), price1559_bid hpct hgas,
    Proc.ofExcept_ok_bind]
  unfold MempoolExecutor.sendPriced MempoolExecutor.lastBid
  rcases hpolicy : executor.replacement with _ | policy
  · exact ⟨_, List.mem_singleton.mpr rfl, rfl⟩
  · rcases hfrom : action.tx.sender with _ | sender
    · exact absurd hfrom (hsender (by rw [hpolicy]; rfl))
    · simp only [sendWithReplacement, TransactionRequest.setMaxPriorityFeePerGas,
        TransactionRequest.setMaxFeePerGas, TransactionRequest.setGasLimit, hfrom]
      rw [Proc.exec_bind_ok (request_getTransactionCount _ _ _ _),
        Proc.exec_bind_ok (submit_exec _ _ _ _)]
      refine paid_watchLoop rfl ?_ ⟨_, List.mem_singleton.mpr rfl, rfl⟩
      change policy.maxReplacements - 0 < policy.maxWatches
      simp only [ReplacementPolicy.maxWatches, ReplacementSchedule.maxTransportFailures]
      omega

/-- For a bid the executor accepts, every submission of every run stays within the profit exactly
when the break-even price at the bid's share, raised by all the replacements of the policy, is still
at most the break-even price; or when the policy finds no sender and nothing is ever submitted. -/
theorem bidHeld_iff (hbid : action.gasBidInfo = some bid) (hpct : bid.bidPercentage ≤ 100)
    (hgas : 0 < gasUsage) :
    executor.BidHeld action bid gasUsage ↔
      executor.lastBid bid gasUsage ≤ bid.totalProfit / gasUsage ∨
        (executor.replacement.isSome ∧ action.tx.sender = none) := by
  constructor
  · intro hheld
    by_cases hsender : executor.replacement.isSome ∧ action.tx.sender = none
    · exact .inr hsender
    · left
      have hfrom : executor.replacement.isSome → action.tx.sender ≠ none :=
        fun hpolicy hnone => hsender ⟨hpolicy, hnone⟩
      obtain ⟨tx, htx, hfee⟩ := StuckNode.paid_execute hbid hpct hgas hfrom
      obtain ⟨fee, hfee', hle⟩ := hheld StuckNode ⟨gasUsage⟩ rfl tx htx
      rw [hfee, Option.some.injEq] at hfee'
      rwa [Nat.le_div_iff_mul_le hgas, hfee']
  · rintro (h | ⟨hpolicy, hsender⟩)
    · exact bidHeld_of_le hbid hpct hgas h
    · exact bidHeld_of_sender hbid hpct hgas hpolicy hsender

end Execute

/-! ### Two bids -/

/-- Bid the whole profit of 100 at one unit of gas. -/
def wholeBid : GasBidInfo := ⟨100, 100, by decide⟩

def wholeAction : SubmitTxToMempool := ⟨⟨some 0, none, none, none, none⟩, some wholeBid⟩

/-- One replacement at 110 %. -/
def replacingExecutor : MempoolExecutor := ⟨100, some ⟨1, .least⟩⟩

/-- The replacement of a break-even bid costs more than the profit. -/
theorem replacement_exceeds_profit :
    (((replacingExecutor.execute wholeAction).exec ⟨StuckNode.mk 1, []⟩).2.submitted.map
        TransactionRequest.maxFeePerGas = [some 100, some 110]) ∧
      ¬ replacingExecutor.BidHeld wholeAction wholeBid 1 := by
  refine ⟨by decide +kernel, fun h => ?_⟩
  obtain ⟨fee, hfee, hle⟩ := h StuckNode ⟨1⟩ rfl
    ⟨some 0, some 0, some 1, some 110, some 0⟩ (by decide +kernel)
  simp only [Option.some.injEq, wholeBid] at hfee hle
  omega

/-- The same bid holds when nothing is replaced. -/
theorem bidHeld_without_replacement :
    (MempoolExecutor.mk 100 none).BidHeld wholeAction wholeBid 1 :=
  (bidHeld_iff rfl (by decide) (by decide)).mpr (.inl (by decide))

end ArtemisLight
