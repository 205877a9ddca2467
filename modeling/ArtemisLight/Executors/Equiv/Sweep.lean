import ArtemisLight.Executors.Equiv.Schedule

/-!
## The receipt sweep

`reachVerdict` is the replacement loop up to the point where it returns or starts to look up
receipts, so that the state in which the sweep starts can be named; `watchLoop_eq` puts the two
parts together.  The sweep covers the acknowledged submissions, and nothing else:
`neverMisreports_iff` says that a mined transaction is reported as a failure exactly when it is a
replacement that the node mined although its send call failed or timed out.
-/

namespace ArtemisLight

/-- What a node has mined, and what its answers say about it. -/
class Mining (N : Type) extends Provider N where
  /-- The hash of the transaction that a request is signed to. -/
  txHash : TransactionRequest → TxHash
  /-- The transaction has a receipt. -/
  Mined : N → TxHash → Prop
  send_hash : ∀ node tx hash, (sendTransaction node tx).1 = .ok hash → hash = txHash tx
  receipt_of_mined : ∀ node hash, Mined node hash → (getTransactionReceipt node hash).1 ≠ .ok none
  mined_of_receipt : ∀ node hash receipt, (getTransactionReceipt node hash).1 = .ok (some receipt) →
    Mined (getTransactionReceipt node hash).2 hash
  /-- A receipt does not vanish while others are looked up. -/
  mined_lookup : ∀ node hash other, Mined node hash →
    Mined (getTransactionReceipt node other).2 hash
  /-- Of the transactions of one sender at one nonce, one is mined. -/
  one_per_nonce : ∀ node tx tx', tx.sender = tx'.sender → tx.nonce = tx'.nonce → tx.nonce.isSome →
    Mined node (txHash tx) → Mined node (txHash tx') → txHash tx = txHash tx'

/-! ### The loop up to its verdict -/

/-- How the loop ends, short of the sweep. -/
inductive Verdict where
  | confirmed
  /-- The fuel is spent. -/
  | spent
  /-- A failure, unless one of the `sent` transactions has mined.  `lost` is the replacement that
  brought it about, if its send call failed or timed out. -/
  | failing (sent : List TxHash) (lost : Option TransactionRequest) (error : Error)

section Loop

variable {N : Type} [Provider N]

/-- What the loop does at its verdict. -/
def Verdict.settle : Verdict → Proc (Wire N) Error (Option Unit)
  | .confirmed => return some ()
  | .spent => return none
  | .failing sent _ e => unlessMined sent e

/-- `watchLoop`, up to its verdict. -/
def reachVerdict : Nat → TransactionRequest → TxHash → List TxHash → ReplacementSchedule →
    Proc (Wire N) Error Verdict
  | 0, _, _, _, _ => return .spent
  | fuel + 1, tx, pending, sent, schedule => do
    let watched ← Proc.step fun w =>
      (.ok (ask (Provider.watch · pending) w).1, (ask (Provider.watch · pending) w).2)
    match schedule.nextStep (WatchOutcome.classify watched) with
    | (.confirmed, _) => return .confirmed
    | (.giveUp, schedule) =>
      return .failing sent none s!"transaction unconfirmed after {schedule.issued} replacement(s)"
    | (.rewatch, schedule) =>
      match watched with
      | .ok _ => throw "rewatch requested without a transport error"
      | .error _ =>
        match sent.getLast? with
        | none => throw "no transaction hash recorded to re-watch"
        | some hash => reachVerdict fuel tx hash sent schedule
    | (.replace next, schedule) =>
      let tx := (tx.setMaxFeePerGas next.maxFeePerGas).setMaxPriorityFeePerGas
        next.maxPriorityFeePerGas
      let resent ← Proc.attempt
        (submit tx "Timeout sending replacement" "Error sending replacement")
      match resent with
      | .ok hash => reachVerdict fuel tx hash (sent ++ [hash]) schedule
      | .error e => return .failing sent (some tx) e

/-- The loop reaches its verdict and settles it. -/
theorem watchLoop_eq (fuel : Nat) (tx : TransactionRequest) (pending : TxHash) (sent : List TxHash)
    (schedule : ReplacementSchedule) :
    watchLoop (N := N) fuel tx pending sent schedule
      = reachVerdict fuel tx pending sent schedule >>= Verdict.settle := by
  induction fuel generalizing tx pending sent schedule with
  | zero => rfl
  | succ fuel ih =>
    unfold watchLoop reachVerdict
    rw [bind_assoc]
    apply bind_congr
    intro watched
    rcases schedule.nextStep (WatchOutcome.classify watched) with ⟨next, schedule'⟩
    cases next with
    | confirmed => rfl
    | giveUp => rfl
    | rewatch =>
      cases watched with
      | ok _ => rfl
      | error _ =>
        rcases sent.getLast? with _ | hash
        · rfl
        · exact ih tx hash sent schedule'
    | replace fees =>
      simp only
      rw [bind_assoc]
      apply bind_congr
      intro resent
      cases resent with
      | ok hash => exact ih _ hash _ schedule'
      | error e => rfl

/-- Pin the nonce and submit for the first time. -/
def submitFirst (tx : TransactionRequest) : Proc (Wire N) Error (TransactionRequest × TxHash) :=
  match tx.sender with
  | none => throw "replacement requires `tx.from` to pin the nonce"
  | some sender => do
    let nonce ← request (Provider.getTransactionCount · sender) "Timeout fetching nonce"
      "Error fetching nonce"
    let tx := tx.setNonce nonce
    let pending ← submit tx "Timeout sending transaction" "Error sending transaction"
    return (tx, pending)

/-- The loop runs after the first submission was acknowledged. -/
theorem sendWithReplacement_eq (tx : TransactionRequest) (fees : Fees)
    (policy : ReplacementPolicy) :
    sendWithReplacement (N := N) tx fees policy
      = submitFirst tx >>= fun first =>
          watchLoop policy.maxWatches first.1 first.2 [first.2]
            (ReplacementSchedule.new policy fees) := by
  unfold sendWithReplacement submitFirst
  rcases tx.sender with _ | sender
  · rfl
  · simp only [bind_assoc, pure_bind]

end Loop
/-! ### What the sweep sees -/

section Seen

variable {N : Type} [Mining N]

open Mining (txHash Mined)

/-- Every lookup of the sweep is answered. -/
def Swept : List TxHash → Wire N → Prop
  | [], _ => True
  | hash :: hashes, w =>
    match ask (Provider.getTransactionReceipt · hash) w with
    | (.ok (some _), _) => True
    | (.ok none, w) => Swept hashes w
    | (.failed, _) => False
    | (.timedOut, _) => False

/-- A sweep whose lookups are answered overlooks nothing that had mined when it started. -/
theorem not_mined_of_swept {sent : List TxHash} {w : Wire N} (hswept : Swept sent w)
    (hfound : (anyMined sent w).1 = false) : ∀ hash ∈ sent, ¬ Mined w.node hash := by
  induction sent generalizing w with
  | nil => simp
  | cons first sent ih =>
    unfold Swept at hswept
    unfold anyMined at hfound
    rcases hask : ask (Provider.getTransactionReceipt · first) w with ⟨_ | _ | _, w'⟩ <;>
      simp only [hask] at hswept
    case ok found =>
      obtain ⟨hanswer, rfl⟩ := Prod.mk.inj hask
      simp only at hanswer
      rcases found with _ | receipt
      · rw [hask] at hfound
        intro hash hhash
        rcases List.mem_cons.mp hhash with rfl | hhash
        · exact fun hmined => Mining.receipt_of_mined _ _ hmined hanswer
        · exact fun hmined => ih hswept hfound hash hhash (Mining.mined_lookup _ _ _ hmined)
      · rw [hask] at hfound
        exact absurd hfound (by simp)

/-- A sweep finds nothing among transactions that none of can be mined. -/
theorem anyMined_eq_false {mined : TxHash} {sent : List TxHash} {w : Wire N}
    (hmined : Mined w.node mined)
    (h : ∀ hash ∈ sent, ∀ node : N, Mined node mined → ¬ Mined node hash) :
    (anyMined sent w).1 = false := by
  induction sent generalizing w with
  | nil => rfl
  | cons first sent ih =>
    have hnext : Mined (ask (Provider.getTransactionReceipt · first) w).2.node mined :=
      Mining.mined_lookup _ _ _ hmined
    have hrest := ih hnext fun hash hhash => h hash (List.mem_cons_of_mem _ hhash)
    unfold anyMined
    split
    case h_1 receipt w' hask =>
      rw [hask] at hnext
      obtain ⟨hanswer, rfl⟩ := Prod.mk.inj hask
      -- a receipt would make both transactions mined
      exact absurd (Mining.mined_of_receipt _ _ _ hanswer) (h first (by simp) _ hnext)
    all_goals
      rename_i hask
      rw [hask] at hrest
      exact hrest

/-! ### What the sweep covers -/

/-- Same sender, same nonce. -/
def Sibling (tx tx' : TransactionRequest) : Prop :=
  tx'.sender = tx.sender ∧ tx'.nonce = tx.nonce

/-- The hashes are those of all submitted transactions, `lost` excepted, and the transactions are
siblings. -/
structure Accounted (N : Type) [Mining N] (tx : TransactionRequest) (sent : List TxHash)
    (lost : Option TransactionRequest) (submitted : List TransactionRequest) : Prop where
  siblings : ∀ tx' ∈ submitted, Sibling tx tx'
  covers : ∃ acknowledged, submitted = acknowledged ++ lost.toList ∧
    sent = acknowledged.map (txHash N)

variable {tx tx' : TransactionRequest} {sent : List TxHash} {submitted : List TransactionRequest}

theorem Accounted.acknowledge (h : Accounted N tx sent none submitted) (htx' : Sibling tx tx') :
    Accounted N tx (sent ++ [txHash N tx']) none (submitted ++ [tx']) := by
  obtain ⟨acknowledged, hsub, hsent⟩ := h.covers
  constructor
  · intro tx'' hmem
    rcases List.mem_append.mp hmem with hmem | hmem
    · exact h.siblings tx'' hmem
    · rwa [List.mem_singleton.mp hmem]
  · refine ⟨acknowledged ++ [tx'], ?_, ?_⟩
    · rw [hsub]
      simp
    · rw [hsent, List.map_append]
      rfl

theorem Accounted.lose (h : Accounted N tx sent none submitted) (htx' : Sibling tx tx') :
    Accounted N tx sent (some tx') (submitted ++ [tx']) := by
  obtain ⟨acknowledged, hsub, hsent⟩ := h.covers
  constructor
  · intro tx'' hmem
    rcases List.mem_append.mp hmem with hmem | hmem
    · exact h.siblings tx'' hmem
    · rwa [List.mem_singleton.mp hmem]
  · exact ⟨acknowledged, by rw [hsub]; simp, hsent⟩

/-- A verdict of failure hands all acknowledged submissions to the sweep. -/
def VerdictAccounted (tx : TransactionRequest) (r : Except Error Verdict) (w : Wire N) : Prop :=
  match r with
  | .ok .confirmed => True
  | .ok .spent => True
  | .ok (.failing sent lost _) => Accounted N tx sent lost w.submitted
  | .error _ => False

/-- The loop never returns past its verdict, and a verdict of failure accounts for everything
submitted. -/
theorem reachVerdict_accounted {fuel : Nat} {cur : TransactionRequest} {pending : TxHash}
    {schedule : ReplacementSchedule} (hcur : Sibling tx cur) (hne : sent ≠ []) :
    Holds (fun w : Wire N => Accounted N tx sent none w.submitted)
      (reachVerdict fuel cur pending sent schedule) (VerdictAccounted tx) := by
  induction fuel generalizing cur pending sent schedule with
  | zero => exact Holds.pure fun _ _ => trivial
  | succ fuel ih =>
    refine Holds.bind (M := fun _ w => Accounted N tx sent none w.submitted)
      (fun _ hw => hw) fun watched => ?_
    rcases hnext : schedule.nextStep (WatchOutcome.classify watched) with ⟨next, schedule'⟩
    cases next with
    | confirmed => exact Holds.pure fun _ _ => trivial
    | giveUp => exact Holds.pure fun _ hw => hw
    | rewatch =>
      obtain ⟨houtcome, -, -⟩ := ReplacementSchedule.nextStep_rewatch hnext
      cases watched with
      | ok _ => exact absurd houtcome (by simp [WatchOutcome.classify])
      | error _ =>
        rw [List.getLast?_eq_some_getLast hne]
        exact ih hcur hne
    | replace fees =>
      intro w hw
      simp only
      rw [Proc.exec_attempt_bind]
      have hsibling : Sibling tx ((cur.setMaxFeePerGas fees.maxFeePerGas).setMaxPriorityFeePerGas
          fees.maxPriorityFeePerGas) := ⟨hcur.1, hcur.2⟩
      generalize (cur.setMaxFeePerGas fees.maxFeePerGas).setMaxPriorityFeePerGas
        fees.maxPriorityFeePerGas = replacement at hsibling ⊢
      rcases hrpc : (Provider.sendTransaction w.node replacement).1 with hash | _ | _ <;>
        simp only [submit, Proc.exec_step, hrpc, Rpc.context]
      case ok =>
        have hne' : sent ++ [hash] ≠ [] := by simp
        apply ih hsibling hne'
        show Accounted N tx (sent ++ [hash]) none (w.submitted ++ [replacement])
        rw [Mining.send_hash _ _ _ hrpc]
        exact hw.acknowledge hsibling
      all_goals exact hw.lose hsibling

/-- An acknowledged first submission is the only one so far, at a pinned nonce. -/
theorem submitFirst_ok {node : N} {pinned : TransactionRequest} {pending : TxHash} {w : Wire N}
    (h : (submitFirst tx).exec ⟨node, []⟩ = (.ok (pinned, pending), w)) :
    pinned.nonce.isSome ∧ pending = txHash N pinned ∧ w.submitted = [pinned] := by
  unfold submitFirst at h
  split at h
  case h_1 => simp at h
  case h_2 sender _ =>
    rcases hnonce : (request (N := N) (Provider.getTransactionCount · sender)
      "Timeout fetching nonce" "Error fetching nonce").exec ⟨node, []⟩ with ⟨_ | nonce, w'⟩
    · rw [Proc.exec_bind_error hnonce] at h
      simp at h
    · have hw' : w'.submitted = [] := by
        rw [request, Proc.exec_step, Prod.mk.injEq] at hnonce
        rw [← hnonce.2]
        rfl
      rw [Proc.exec_bind_ok hnonce] at h
      have hsend := Mining.send_hash w'.node (tx.setNonce nonce)
      rcases hrpc : (Provider.sendTransaction w'.node (tx.setNonce nonce)).1 with hash | _ | _
      case ok =>
        have hsubmit : (submit (tx.setNonce nonce) "Timeout sending transaction"
            "Error sending transaction").exec w'
            = (.ok hash, ⟨(Provider.sendTransaction w'.node (tx.setNonce nonce)).2,
                w'.submitted ++ [tx.setNonce nonce]⟩) := by
          simp only [submit, Proc.exec_step, hrpc, Rpc.context]
        rw [Proc.exec_bind_ok hsubmit, Proc.exec_pure] at h
        simp only [Prod.mk.injEq, Except.ok.injEq] at h
        obtain ⟨⟨rfl, rfl⟩, rfl⟩ := h
        refine ⟨rfl, hsend hash hrpc, ?_⟩
        rw [hw']
        rfl
      all_goals
        rw [Proc.exec_bind_error (by
          simp only [submit, Proc.exec_step, hrpc, Rpc.context]; rfl)] at h
        simp at h

/-! ### Failures that are reported -/

/-- The loop that follows an acknowledged first submission, up to its verdict. -/
def verdictAfter (first : TransactionRequest × TxHash) (fees : Fees) (policy : ReplacementPolicy) :
    Proc (Wire N) Error Verdict :=
  reachVerdict policy.maxWatches first.1 first.2 [first.2] (ReplacementSchedule.new policy fees)

/-- An error that follows an acknowledged first submission comes out of a sweep, and if all lookups
of the sweep are answered, no transaction handed to the node had mined when it started. -/
def NeverMisreports (node : N) (tx : TransactionRequest) (fees : Fees)
    (policy : ReplacementPolicy) : Prop :=
  ∀ first w e w', (submitFirst tx).exec ⟨node, []⟩ = (.ok first, w) →
    (sendWithReplacement tx fees policy).exec ⟨node, []⟩ = (.error e, w') →
      ∃ sent lost start, (verdictAfter first fees policy).exec w
          = (.ok (.failing sent lost e), start) ∧
        (unlessMined sent e).exec start = (.error e, w') ∧
        (Swept sent start → ∀ tx' ∈ start.submitted, ¬ Mined start.node (txHash N tx'))

/-- A replacement that was not acknowledged has not mined when its send call is over, or it is a
transaction that was acknowledged before. -/
def NothingStranded (node : N) (tx : TransactionRequest) (fees : Fees)
    (policy : ReplacementPolicy) : Prop :=
  ∀ first w sent lost e start, (submitFirst tx).exec ⟨node, []⟩ = (.ok first, w) →
    (verdictAfter first fees policy).exec w = (.ok (.failing sent (some lost) e), start) →
      Swept sent start → Mined start.node (txHash N lost) → txHash N lost ∈ sent

variable {node : N} {first : TransactionRequest × TxHash} {w : Wire N} {fees : Fees}
  {policy : ReplacementPolicy}

/-- What remains to be run after the first submission. -/
theorem exec_sendWithReplacement (hfirst : (submitFirst tx).exec ⟨node, []⟩ = (.ok first, w)) :
    (sendWithReplacement tx fees policy).exec ⟨node, []⟩
      = (verdictAfter first fees policy >>= Verdict.settle).exec w := by
  rw [sendWithReplacement_eq, Proc.exec_bind_ok hfirst, watchLoop_eq]
  rfl

/-- The loop has a verdict, and it accounts for everything submitted. -/
theorem verdictAfter_accounted (fees : Fees) (policy : ReplacementPolicy)
    (hfirst : (submitFirst tx).exec ⟨node, []⟩ = (.ok first, w)) :
    first.1.nonce.isSome ∧
      VerdictAccounted first.1 ((verdictAfter first fees policy).exec w).1
        ((verdictAfter first fees policy).exec w).2 := by
  obtain ⟨hnonce, hpending, hsub⟩ := submitFirst_ok hfirst
  refine ⟨hnonce, reachVerdict_accounted ⟨rfl, rfl⟩ (List.cons_ne_nil _ _) w ?_⟩
  constructor
  · intro tx' htx'
    rw [hsub, List.mem_singleton] at htx'
    rw [htx']
    exact ⟨rfl, rfl⟩
  · exact ⟨[first.1], by rw [hsub]; rfl, by rw [hpending]; rfl⟩

theorem unlessMined_of_not_mined {e : Error} (h : (anyMined sent w).1 = false) :
    (unlessMined sent e).exec w = (.error e, (anyMined sent w).2) := by
  unfold unlessMined
  rw [Proc.exec_step_bind, h]
  rfl

theorem unlessMined_eq_error {e e' : Error} {w' : Wire N}
    (h : (unlessMined sent e).exec w = (.error e', w')) :
    (anyMined sent w).1 = false ∧ e' = e := by
  unfold unlessMined at h
  rw [Proc.exec_step_bind] at h
  cases hfound : (anyMined sent w).1 <;> rw [hfound] at h
  · simp only [Bool.false_eq_true, if_false, Proc.exec_throw, Prod.mk.injEq,
      Except.error.injEq] at h
    exact ⟨rfl, h.1.symm⟩
  · simp at h

/-- If nothing is stranded, a failure is a failure. -/
theorem neverMisreports_of_nothingStranded (h : NothingStranded node tx fees policy) :
    NeverMisreports node tx fees policy := by
  intro first w e w' hfirst hfails
  have haccounted := (verdictAfter_accounted fees policy hfirst).2
  rw [exec_sendWithReplacement hfirst] at hfails
  rcases hverdict : (verdictAfter first fees policy).exec w with ⟨e' | verdict, start⟩
  · rw [hverdict] at haccounted
    exact haccounted.elim
  · rw [Proc.exec_bind_ok hverdict] at hfails
    rw [hverdict] at haccounted
    cases verdict with
    | confirmed => simp [Verdict.settle] at hfails
    | spent => simp [Verdict.settle] at hfails
    | failing sent lost e' =>
      obtain ⟨hfound, rfl⟩ := unlessMined_eq_error hfails
      refine ⟨sent, lost, start, rfl, hfails, fun hswept tx' htx' hmined => ?_⟩
      have hunmined := not_mined_of_swept hswept hfound
      obtain ⟨acknowledged, hsub, hsent⟩ := haccounted.covers
      rw [hsub] at htx'
      rcases List.mem_append.mp htx' with hack | hlost
      · exact hunmined _ (by rw [hsent]; exact List.mem_map_of_mem hack) hmined
      · -- only the unacknowledged replacement is outside the sweep
        obtain rfl := Option.mem_toList.mp hlost
        exact hunmined _ (h _ _ _ _ _ _ hfirst hverdict hswept hmined) hmined

/-- A stranded replacement is reported as a failure. -/
theorem nothingStranded_of_neverMisreports (h : NeverMisreports node tx fees policy) :
    NothingStranded node tx fees policy := by
  intro first w sent lost e start hfirst hverdict hswept hmined
  obtain ⟨hnonce, haccounted⟩ := verdictAfter_accounted fees policy hfirst
  rw [hverdict] at haccounted
  obtain ⟨acknowledged, hsub, hsent⟩ := haccounted.covers
  by_contra hnot
  -- the acknowledged ones share its nonce, so none of them can have mined
  have hfound : (anyMined sent start).1 = false := by
    refine anyMined_eq_false hmined fun hash hhash node' hlost hother => hnot ?_
    rw [hsent] at hhash
    obtain ⟨tx', htx', rfl⟩ := List.mem_map.mp hhash
    have hsib := haccounted.siblings tx' (by rw [hsub]; exact List.mem_append_left _ htx')
    have hsib' := haccounted.siblings lost (by rw [hsub]; simp)
    have hsame := Mining.one_per_nonce node' lost tx' (hsib'.1.trans hsib.1.symm)
      (hsib'.2.trans hsib.2.symm) (by rw [hsib'.2]; exact hnonce) hlost hother
    rw [hsame, hsent]
    exact List.mem_map_of_mem htx'
  have hfails : (sendWithReplacement tx fees policy).exec ⟨node, []⟩
      = (.error e, (anyMined sent start).2) := by
    rw [exec_sendWithReplacement hfirst, Proc.exec_bind_ok hverdict]
    exact unlessMined_of_not_mined hfound
  obtain ⟨sent', lost', start', hverdict', -, hnone⟩ := h first w e _ hfirst hfails
  rw [hverdict] at hverdict'
  simp only [Prod.mk.injEq, Except.ok.injEq, Verdict.failing.injEq] at hverdict'
  obtain ⟨⟨rfl, rfl, -⟩, rfl⟩ := hverdict'
  exact hnone hswept lost (by rw [hsub]; simp) hmined

/-- Whatever the node does: nothing that mined is reported as a failure exactly when no replacement
is mined behind a send call that failed or timed out. -/
theorem neverMisreports_iff (node : N) (tx : TransactionRequest) (fees : Fees)
    (policy : ReplacementPolicy) :
    NeverMisreports node tx fees policy ↔ NothingStranded node tx fees policy :=
  ⟨nothingStranded_of_neverMisreports, neverMisreports_of_nothingStranded⟩

end Seen

/-! ### A lost acknowledgement -/

/-- A node that acknowledges its first submission, and mines the second one without acknowledging
it. -/
structure LossyNode where
  sends : Nat
  mined : Option TxHash

instance : Mining LossyNode where
  estimateGas n _ := (.ok 21000, n)
  estimateEip1559Fees n := (.ok ⟨0, 0⟩, n)
  getTransactionCount n _ := (.ok 0, n)
  sendTransaction n tx :=
    let hash : TxHash := BitVec.ofNat 256 (tx.maxFeePerGas.getD 0)
    if n.sends = 0 then (.ok hash, ⟨1, n.mined⟩) else (.timedOut, ⟨n.sends + 1, some hash⟩)
  watch n _ := (.error .watchTimeout, n)
  getTransactionReceipt n hash := (.ok (if n.mined = some hash then some ⟨true⟩ else none), n)
  txHash tx := BitVec.ofNat 256 (tx.maxFeePerGas.getD 0)
  Mined n hash := n.mined = some hash
  send_hash n tx hash h := by
    simp only at h
    split at h
    · exact (Rpc.ok.inj h).symm
    · exact nomatch h
  receipt_of_mined n hash h := by simp [h]
  mined_of_receipt n hash receipt h := by
    simp only [Rpc.ok.injEq] at h
    by_contra hne
    simp [hne] at h
  mined_lookup _ _ _ h := h
  one_per_nonce n tx tx' _ _ _ h h' := Option.some.inj (h.symm.trans h')

/-- A first submission at a maximum fee of 100, and the replacement that escalates it. -/
def lossyTx (fee priorityFee : Nat) : TransactionRequest :=
  ⟨some 0, some 0, none, some fee, some priorityFee⟩

/-- One replacement at 110 %. -/
def lossyPolicy : ReplacementPolicy := ⟨1, .least⟩

theorem lossyFees_fits : 100 ≤ u128Max := by decide

def lossyFees : Fees := Fees.clamped 100 10 lossyFees_fits

/-- The replacement mined, and its send call timed out: the sweep looks for the first submission
only, and the call fails. -/
theorem lost_replacement_misreported :
    ¬ ∀ (N : Type) [Mining N] (node : N) (tx : TransactionRequest) (fees : Fees)
      (policy : ReplacementPolicy), NeverMisreports node tx fees policy := by
  intro h
  obtain ⟨sent, lost, start, hverdict, -, hnone⟩ :=
    h LossyNode ⟨0, none⟩ (lossyTx 100 10) lossyFees lossyPolicy (lossyTx 100 10, 100)
      ⟨⟨1, none⟩, [lossyTx 100 10]⟩ "Timeout sending replacement"
      ⟨⟨2, some 110⟩, [lossyTx 100 10, lossyTx 110 11]⟩ rfl rfl
  have hrun : (verdictAfter (lossyTx 100 10, 100) lossyFees lossyPolicy).exec
      (⟨⟨1, none⟩, [lossyTx 100 10]⟩ : Wire LossyNode)
      = (.ok (.failing [100] (some (lossyTx 110 11)) "Timeout sending replacement"),
          ⟨⟨2, some 110⟩, [lossyTx 100 10, lossyTx 110 11]⟩) := rfl
  rw [hrun] at hverdict
  simp only [Prod.mk.injEq, Except.ok.injEq, Verdict.failing.injEq] at hverdict
  obtain ⟨⟨rfl, rfl, -⟩, rfl⟩ := hverdict
  exact hnone trivial (lossyTx 110 11) (by simp) rfl

end ArtemisLight
