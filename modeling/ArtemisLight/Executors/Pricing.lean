import ArtemisLight.Lib.Machine
import ArtemisLight.Types

/-!
# Fee pricing

The fee arithmetic that the mempool executor and its replacement loop share.  All amounts are
`u128`s and all percentages and gas amounts `u64`s.
-/

namespace ArtemisLight

/-- An EIP-1559 fee pair; the priority fee never exceeds the maximum. -/
structure Fees where
  maxFeePerGas : Nat
  maxPriorityFeePerGas : Nat
  priority_le : maxPriorityFeePerGas ≤ maxFeePerGas
  fits : maxFeePerGas ≤ u128Max
  deriving DecidableEq

/-- A fee pair, the priority fee lowered to the maximum. -/
def Fees.clamped (maxFeePerGas maxPriorityFeePerGas : Nat) (fits : maxFeePerGas ≤ u128Max) : Fees :=
  ⟨maxFeePerGas, min maxPriorityFeePerGas maxFeePerGas, Nat.min_le_right _ _, fits⟩

/-- A provider's fee suggestion. -/
structure FeeEstimate where
  maxFeePerGas : Nat
  maxPriorityFeePerGas : Nat
  deriving DecidableEq, Repr

/-- The gas bid for a transaction. -/
structure GasBidInfo where
  /-- Total profit expected from the opportunity. -/
  totalProfit : Nat
  /-- Percentage of the profit to spend on gas. -/
  bidPercentage : Nat
  fits : totalProfit ≤ u128Max
  deriving DecidableEq

/-- Scale `v` by `percent`; a product that overflows gives `u128::MAX`. -/
def scalePercent (v percent : Nat) : Nat :=
  match checkedMul u128Max v percent with
  | some product => product / 100
  | none => u128Max

theorem scalePercent_le (v percent : Nat) : scalePercent v percent ≤ u128Max := by
  unfold scalePercent checkedMul
  by_cases h : v * percent ≤ u128Max
  · rw [if_pos h]
    exact Nat.le_trans (Nat.div_le_self _ _) h
  · simp [h]

/-- Price a transaction.  With a bid the maximum fee is the break-even price at the bid's share. -/
def price1559 (est : FeeEstimate) (gasUsage bumpPercent : Nat) (bid : Option GasBidInfo) :
    Except Error Fees :=
  let baseHeadroom := est.maxFeePerGas - est.maxPriorityFeePerGas
  let bumpedPriority := scalePercent est.maxPriorityFeePerGas bumpPercent
  match bid with
  | some bid =>
    if 100 < bid.bidPercentage then
      .error (s!"bid_percentage {bid.bidPercentage} exceeds 100: the gas bid would cost more "
        ++ "than the opportunity's total profit")
    else if gasUsage = 0 then
      .error "Gas estimation returned 0, cannot calculate bid price"
    else
      let breakeven := bid.totalProfit / gasUsage
      .ok (Fees.clamped (scalePercent breakeven bid.bidPercentage) bumpedPriority
        (scalePercent_le _ _))
  | none =>
    .ok (Fees.clamped (saturatingAdd u128Max baseHeadroom bumpedPriority) bumpedPriority
      (saturatingAdd_le _ _ _))

/-- Raise both fees for a replacement. -/
def escalate (fees : Fees) (escalationPercent : Nat) : Fees :=
  Fees.clamped (scalePercent fees.maxFeePerGas escalationPercent)
    (scalePercent fees.maxPriorityFeePerGas escalationPercent) (scalePercent_le _ _)

/-! ### Scaling -/

theorem scalePercent_of_le {v percent : Nat} (h : v * percent ≤ u128Max) :
    scalePercent v percent = v * percent / 100 := by
  unfold scalePercent checkedMul
  rw [if_pos h]

theorem scalePercent_of_lt {v percent : Nat} (h : u128Max < v * percent) :
    scalePercent v percent = u128Max := by
  unfold scalePercent checkedMul
  rw [if_neg (by omega)]

/-- Scaling keeps the order: saturation only ever yields the largest value. -/
theorem scalePercent_mono {v w : Nat} (h : v ≤ w) (percent : Nat) :
    scalePercent v percent ≤ scalePercent w percent := by
  have hmul : v * percent ≤ w * percent := Nat.mul_le_mul_right _ h
  rcases Nat.lt_or_ge u128Max (w * percent) with hw | hw
  · rw [scalePercent_of_lt hw]
    exact scalePercent_le _ _
  · rw [scalePercent_of_le hw, scalePercent_of_le (Nat.le_trans hmul hw)]
    exact Nat.div_le_div_right hmul

/-- Scaling by at least 100 % lowers nothing. -/
theorem le_scalePercent {v percent : Nat} (hv : v ≤ u128Max) (h : 100 ≤ percent) :
    v ≤ scalePercent v percent := by
  rcases Nat.lt_or_ge u128Max (v * percent) with hw | hw
  · rwa [scalePercent_of_lt hw]
  · rw [scalePercent_of_le hw, Nat.le_div_iff_mul_le (by omega)]
    exact Nat.mul_le_mul_left _ h

@[simp] theorem escalate_maxFeePerGas (fees : Fees) (percent : Nat) :
    (escalate fees percent).maxFeePerGas = scalePercent fees.maxFeePerGas percent := rfl

/-- What an accepted bid is priced at. -/
theorem price1559_bid {est : FeeEstimate} {gasUsage bumpPercent : Nat} {bid : GasBidInfo}
    (hbid : bid.bidPercentage ≤ 100) (hgas : 0 < gasUsage) :
    price1559 est gasUsage bumpPercent (some bid)
      = (.ok (Fees.clamped (scalePercent (bid.totalProfit / gasUsage) bid.bidPercentage)
          (scalePercent est.maxPriorityFeePerGas bumpPercent) (scalePercent_le _ _)) :
          Except Error Fees) := by
  unfold price1559
  simp only
  rw [if_neg (by omega), if_neg (by omega)]

end ArtemisLight
