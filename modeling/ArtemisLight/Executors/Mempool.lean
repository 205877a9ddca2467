import ArtemisLight.Executors.Pricing
import ArtemisLight.Lib.Procedure

/-!
# The mempool executor

`execute` prices an action and submits it, once or with same-nonce replacements at escalating fees.
The node is a state of its own: each call may change what later calls answer, a submission that
fails or times out included.  Durations are not modelled, a call that outlasts its timeout is one of
the node's answers; log lines are left out.
-/

namespace ArtemisLight

abbrev Address := BitVec 160

abbrev TxHash := BitVec 256

/-- The fields of a transaction request that the executor reads or sets.  `sender` is `from`. -/
structure TransactionRequest where
  sender : Option Address
  nonce : Option Nat
  gas : Option Nat
  maxFeePerGas : Option Nat
  maxPriorityFeePerGas : Option Nat
  deriving DecidableEq

def TransactionRequest.setNonce (tx : TransactionRequest) (nonce : Nat) : TransactionRequest :=
  { tx with nonce := some nonce }

def TransactionRequest.setGasLimit (tx : TransactionRequest) (gas : Nat) : TransactionRequest :=
  { tx with gas := some gas }

def TransactionRequest.setMaxFeePerGas (tx : TransactionRequest) (fee : Nat) :
    TransactionRequest :=
  { tx with maxFeePerGas := some fee }

def TransactionRequest.setMaxPriorityFeePerGas (tx : TransactionRequest) (fee : Nat) :
    TransactionRequest :=
  { tx with maxPriorityFeePerGas := some fee }

/-! ### The node -/

/-- How a call to the node under `tokio::time::timeout` ends. -/
inductive Rpc (α : Type) where
  | ok (value : α)
  | failed
  | timedOut

/-- The contexts added to the two failures of a call, and the `?`s behind them. -/
def Rpc.context {α : Type} (r : Rpc α) (timeout error : Error) : Except Error α :=
  match r with
  | .ok value => .ok value
  | .failed => .error error
  | .timedOut => .error timeout

/-- Why a confirmation watch ended without a confirmation. -/
inductive PendingTransactionError where
  /-- `TxWatcher(WatchTxError::Timeout)`. -/
  | watchTimeout
  | other
  deriving DecidableEq

/-- What a mined transaction leaves behind, a reverted one included. -/
structure Receipt where
  status : Bool
  deriving DecidableEq

/-- What the executor asks a node. -/
class Provider (N : Type) where
  estimateGas : N → TransactionRequest → Rpc Nat × N
  estimateEip1559Fees : N → Rpc FeeEstimate × N
  /-- The sender's transaction count, pending transactions included. -/
  getTransactionCount : N → Address → Rpc Nat × N
  sendTransaction : N → TransactionRequest → Rpc TxHash × N
  /-- Wait for a confirmation until the confirmation timeout. -/
  watch : N → TxHash → Except PendingTransactionError TxHash × N
  getTransactionReceipt : N → TxHash → Rpc (Option Receipt) × N

/-- The node, and every transaction handed to it so far. -/
structure Wire (N : Type) where
  node : N
  submitted : List TransactionRequest

section Calls

variable {N α : Type}

/-- A call that submits nothing. -/
def ask (call : N → α × N) (w : Wire N) : α × Wire N :=
  ((call w.node).1, { w with node := (call w.node).2 })

/-- A call under the RPC timeout, with its contexts. -/
def request (call : N → Rpc α × N) (timeout error : Error) : Proc (Wire N) Error α :=
  Proc.step fun w => ((ask call w).1.context timeout error, (ask call w).2)

/-- A submission under the RPC timeout, with its contexts. -/
def submit [Provider N] (tx : TransactionRequest) (timeout error : Error) :
    Proc (Wire N) Error TxHash :=
  Proc.step fun w =>
    let r := Provider.sendTransaction w.node tx
    (r.1.context timeout error, ⟨r.2, w.submitted ++ [tx]⟩)

end Calls

/-! ### The replacement schedule -/

/-- The gas limit to submit for an estimate: 20 % headroom, saturating. -/
def gasLimitWithHeadroom (estimate : Nat) : Nat :=
  let gasLimitHeadroomDivisor := 5
  saturatingAdd u64Max estimate (estimate / gasLimitHeadroomDivisor)

/-- A fee multiplier per replacement, as a percentage of at least 110. -/
structure EscalationPercent where
  percent : Nat
  min_le : 110 ≤ percent
  deriving DecidableEq

/-- The smallest multiplier there is. -/
def EscalationPercent.least : EscalationPercent := ⟨110, Nat.le_refl _⟩

/-- A multiplier, or an error if it is too small. -/
def EscalationPercent.new (percent : Nat) : Except Error EscalationPercent :=
  if h : percent < 110 then
    .error (s!"escalation_percent must be >= 110 to clear the node's minimum replacement bump; "
      ++ s!"got {percent}")
  else .ok ⟨percent, Nat.le_of_not_lt h⟩

/-- When and how to replace a transaction that has not confirmed. -/
structure ReplacementPolicy where
  /-- How many escalated resubmissions after the original. -/
  maxReplacements : Nat
  escalationPercent : EscalationPercent
  deriving DecidableEq

/-- How one confirmation watch ended. -/
inductive WatchOutcome where
  | confirmed
  | timedOut
  | transportError
  deriving DecidableEq, Repr

def WatchOutcome.classify (result : Except PendingTransactionError TxHash) : WatchOutcome :=
  match result with
  | .ok _ => .confirmed
  | .error .watchTimeout => .timedOut
  | .error _ => .transportError

/-- The replacement loop's next move. -/
inductive NextStep where
  /-- The transaction mined. -/
  | confirmed
  /-- Resend at these fees and the same nonce. -/
  | replace (fees : Fees)
  /-- Watch the same submission again. -/
  | rewatch
  /-- Check every sent hash's receipt, then give up. -/
  | giveUp
  deriving DecidableEq

/-- The fee schedule and the counters of the replacement loop. -/
structure ReplacementSchedule where
  escalationPercent : Nat
  maxReplacements : Nat
  /-- The fees of the last submission. -/
  fees : Fees
  /-- Replacements issued so far. -/
  issued : Nat
  /-- Watch transport failures in a row. -/
  transportFailures : Nat
  deriving DecidableEq

namespace ReplacementSchedule

/-- Watch transport failures in a row that are answered with a re-watch. -/
def maxTransportFailures : Nat := 3

def new (policy : ReplacementPolicy) (initial : Fees) : ReplacementSchedule :=
  ⟨policy.escalationPercent.percent, policy.maxReplacements, initial, 0, 0⟩

/-- The next replacement's fees, unless every replacement has been issued. -/
def escalate (s : ReplacementSchedule) : Option Fees × ReplacementSchedule :=
  if s.maxReplacements ≤ s.issued then (none, s)
  else
    let s := { s with
      issued := s.issued + 1, fees := ArtemisLight.escalate s.fees s.escalationPercent }
    (some s.fees, s)

/-- The loop's next move after a watch ended. -/
def nextStep (s : ReplacementSchedule) (outcome : WatchOutcome) : NextStep × ReplacementSchedule :=
  match outcome with
  | .confirmed => (.confirmed, s)
  | .timedOut =>
    match escalate { s with transportFailures := 0 } with
    | (some fees, s) => (.replace fees, s)
    | (none, s) => (.giveUp, s)
  | .transportError =>
    let s := { s with transportFailures := s.transportFailures + 1 }
    if maxTransportFailures < s.transportFailures then (.giveUp, s) else (.rewatch, s)

end ReplacementSchedule

/-! ### The executor -/

structure MempoolExecutor where
  /-- Percentage applied to the suggested priority fee. -/
  priorityFeeBumpPercent : Nat
  replacement : Option ReplacementPolicy
  deriving DecidableEq

structure SubmitTxToMempool where
  tx : TransactionRequest
  gasBidInfo : Option GasBidInfo
  deriving DecidableEq

variable {N : Type} [Provider N]

/-- Whether any of the given transactions has a receipt; a failed lookup counts as unmined. -/
def anyMined : List TxHash → Wire N → Bool × Wire N
  | [], w => (false, w)
  | hash :: hashes, w =>
    match ask (Provider.getTransactionReceipt · hash) w with
    | (.ok (some _), w) => (true, w)
    | (.ok none, w) => anyMined hashes w
    | (.failed, w) => anyMined hashes w
    | (.timedOut, w) => anyMined hashes w

/-- A failure verdict, unless one of the sent transactions has mined after all. -/
def unlessMined (sent : List TxHash) (e : Error) : Proc (Wire N) Error (Option Unit) := do
  let mined ← Proc.step fun w => (.ok (anyMined sent w).1, (anyMined sent w).2)
  if mined then return some () else throw e

/-- The watch-and-escalate loop.  It returns `none` when the fuel is spent. -/
def watchLoop : Nat → TransactionRequest → TxHash → List TxHash → ReplacementSchedule →
    Proc (Wire N) Error (Option Unit)
  | 0, _, _, _, _ => return none
  | fuel + 1, tx, pending, sent, schedule => do
    let watched ← Proc.step fun w =>
      (.ok (ask (Provider.watch · pending) w).1, (ask (Provider.watch · pending) w).2)
    match schedule.nextStep (WatchOutcome.classify watched) with
    | (.confirmed, _) => return some ()
    | (.giveUp, schedule) =>
      unlessMined sent s!"transaction unconfirmed after {schedule.issued} replacement(s)"
    | (.rewatch, schedule) =>
      match watched with
      | .ok _ => throw "rewatch requested without a transport error"
      | .error _ =>
        match sent.getLast? with
        | none => throw "no transaction hash recorded to re-watch"
        | some hash => watchLoop fuel tx hash sent schedule
    | (.replace next, schedule) =>
      let tx := (tx.setMaxFeePerGas next.maxFeePerGas).setMaxPriorityFeePerGas
        next.maxPriorityFeePerGas
      -- A rejected replacement is the shape of an earlier submission having just mined.
      let resent ← Proc.attempt
        (submit tx "Timeout sending replacement" "Error sending replacement")
      match resent with
      | .ok hash => watchLoop fuel tx hash (sent ++ [hash]) schedule
      | .error e => unlessMined sent e

/-- The number of watches the loop can make. -/
def ReplacementPolicy.maxWatches (policy : ReplacementPolicy) : Nat :=
  (policy.maxReplacements + 1) * (ReplacementSchedule.maxTransportFailures + 1)

/-- Submit at a pinned nonce and watch, replacing the transaction on each confirmation timeout. -/
def sendWithReplacement (tx : TransactionRequest) (initialFees : Fees)
    (policy : ReplacementPolicy) : Proc (Wire N) Error (Option Unit) :=
  match tx.sender with
  | none => throw "replacement requires `tx.from` to pin the nonce"
  | some sender => do
    let nonce ← request (Provider.getTransactionCount · sender) "Timeout fetching nonce"
      "Error fetching nonce"
    let tx := tx.setNonce nonce
    let pending ← submit tx "Timeout sending transaction" "Error sending transaction"
    watchLoop policy.maxWatches tx pending [pending] (ReplacementSchedule.new policy initialFees)

/-- Submit once and return without watching. -/
def sendAndForget (tx : TransactionRequest) : Proc (Wire N) Error (Option Unit) := do
  let _ ← submit tx "Timeout sending transaction" "Error sending transaction"
  return some ()

/-- Set the gas limit and the fees, and submit: once, unless a replacement policy is configured. -/
def MempoolExecutor.sendPriced (executor : MempoolExecutor) (tx : TransactionRequest)
    (gasUsage : Nat) (fees : Fees) : Proc (Wire N) Error (Option Unit) :=
  let tx := ((tx.setGasLimit (gasLimitWithHeadroom gasUsage)).setMaxFeePerGas
    fees.maxFeePerGas).setMaxPriorityFeePerGas fees.maxPriorityFeePerGas
  match executor.replacement with
  | none => sendAndForget tx
  | some policy => sendWithReplacement tx fees policy

/-- Price an action and submit it. -/
def MempoolExecutor.execute (executor : MempoolExecutor) (action : SubmitTxToMempool) :
    Proc (Wire N) Error (Option Unit) := do
  if let some bid := action.gasBidInfo then
    if 100 < bid.bidPercentage then
      throw (s!"bid_percentage {bid.bidPercentage} exceeds 100: the gas bid would cost more "
        ++ "than the opportunity's total profit")
  let gasUsage ← request (Provider.estimateGas · action.tx) "Timeout estimating gas usage"
    "Error estimating gas usage"
  let estimate ← request Provider.estimateEip1559Fees "Timeout estimating EIP-1559 fees"
    "Error estimating EIP-1559 fees"
  let fees ← Proc.ofExcept
    (price1559 estimate gasUsage executor.priorityFeeBumpPercent action.gasBidInfo)
  executor.sendPriced action.tx gasUsage fees

end ArtemisLight
