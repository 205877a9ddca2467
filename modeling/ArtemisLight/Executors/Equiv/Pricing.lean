import ArtemisLight.Executors.Equiv.Schedule
import Mathlib.Data.List.Chain

/-!
## Prices and replacement fees

`price1559_exact` says what a price is, and when a bid is held by it: the break-even price at the
bid's share saturates upwards.  `replacements_clear_iff` says when each replacement clears the
node's minimum bump of 10 % over the fees before it: `scalePercent` rounds down, and the percentage
must cover what it rounds off.
-/

namespace ArtemisLight

/-! ### Prices -/

/-- What `price1559` makes of an estimate. -/
structure Priced (est : FeeEstimate) (gasUsage bumpPercent : Nat) (bid : Option GasBidInfo)
    (fees : Fees) : Prop where
  priority_le : fees.maxPriorityFeePerGas ≤ fees.maxFeePerGas
  /-- A bid is held, unless its share of the break-even price overflows and is not the whole
  profit. -/
  held : ∀ b, bid = some b →
    (100 * fees.maxFeePerGas * gasUsage ≤ b.totalProfit * b.bidPercentage ↔
      b.totalProfit / gasUsage * b.bidPercentage ≤ u128Max ∨
        b.totalProfit = u128Max ∧ gasUsage = 1 ∧ b.bidPercentage = 100)
  saturated : ∀ b, bid = some b → u128Max < b.totalProfit / gasUsage * b.bidPercentage →
    fees.maxFeePerGas = u128Max
  /-- Without a bid the priority fee is the bumped one, and the maximum adds the headroom to it. -/
  free : bid = none →
    fees.maxFeePerGas = min (est.maxFeePerGas - est.maxPriorityFeePerGas
        + scalePercent est.maxPriorityFeePerGas bumpPercent) u128Max ∧
      fees.maxPriorityFeePerGas = scalePercent est.maxPriorityFeePerGas bumpPercent

/-- A share whose product does not overflow is within the profit. -/
theorem share_le_profit {profit gasUsage percent : Nat}
    (h : profit / gasUsage * percent ≤ u128Max) :
    100 * scalePercent (profit / gasUsage) percent * gasUsage ≤ profit * percent := by
  rw [scalePercent_of_le h]
  calc 100 * (profit / gasUsage * percent / 100) * gasUsage
      ≤ profit / gasUsage * percent * gasUsage :=
        Nat.mul_le_mul_right _ (Nat.mul_div_le _ _)
    _ = profit / gasUsage * gasUsage * percent := Nat.mul_right_comm _ _ _
    _ ≤ profit * percent := Nat.mul_le_mul_right _ (Nat.div_mul_le_self _ _)

/-- A saturated share is within the profit only if it is the whole of the largest profit. -/
theorem saturated_le_profit_iff {profit gasUsage percent : Nat} (hprofit : profit ≤ u128Max)
    (hpct : percent ≤ 100) (hgas : 0 < gasUsage) :
    100 * u128Max * gasUsage ≤ profit * percent ↔
      profit = u128Max ∧ gasUsage = 1 ∧ percent = 100 := by
  constructor
  · intro h
    have hmul : profit * percent ≤ u128Max * percent := Nat.mul_le_mul_right _ hprofit
    have hgas' : 100 * u128Max * 1 ≤ 100 * u128Max * gasUsage := Nat.mul_le_mul_left _ hgas
    have hpct' : percent = 100 := by
      have hle : u128Max * 100 ≤ u128Max * percent := by omega
      exact Nat.le_antisymm hpct (Nat.le_of_mul_le_mul_left hle (by decide))
    subst hpct'
    have hprofit' : profit = u128Max := by omega
    subst hprofit'
    refine ⟨rfl, ?_, rfl⟩
    have hle : 100 * u128Max * gasUsage ≤ 100 * u128Max * 1 := by omega
    exact Nat.le_antisymm (Nat.le_of_mul_le_mul_left hle (by decide)) hgas
  · rintro ⟨rfl, rfl, rfl⟩
    decide

/-- The maximum fee of a bid holds it exactly when nothing saturates, or nothing is lost by it. -/
theorem share_held_iff {bid : GasBidInfo} {gasUsage : Nat} (hpct : bid.bidPercentage ≤ 100)
    (hgas : 0 < gasUsage) :
    100 * scalePercent (bid.totalProfit / gasUsage) bid.bidPercentage * gasUsage
        ≤ bid.totalProfit * bid.bidPercentage ↔
      bid.totalProfit / gasUsage * bid.bidPercentage ≤ u128Max ∨
        bid.totalProfit = u128Max ∧ gasUsage = 1 ∧ bid.bidPercentage = 100 := by
  rcases Nat.lt_or_ge u128Max (bid.totalProfit / gasUsage * bid.bidPercentage) with hlt | hle
  · rw [scalePercent_of_lt hlt, saturated_le_profit_iff bid.fits hpct hgas]
    constructor
    · exact Or.inr
    · rintro (hle | h)
      · omega
      · exact h
  · exact iff_of_true (share_le_profit hle) (Or.inl hle)

/-- A bid above the whole profit, or on no gas, has no price. -/
theorem price1559_rejected {est : FeeEstimate} {gasUsage bumpPercent : Nat} {b : GasBidInfo}
    (h : 100 < b.bidPercentage ∨ gasUsage = 0) :
    ∃ e, price1559 est gasUsage bumpPercent (some b) = .error e := by
  unfold price1559
  by_cases hpct : 100 < b.bidPercentage
  · simp only [if_pos hpct]
    exact ⟨_, rfl⟩
  · simp only [if_neg hpct, if_pos (h.resolve_left hpct)]
    exact ⟨_, rfl⟩

/-- What a bid is priced at. -/
theorem priced_bid {est : FeeEstimate} {gasUsage bumpPercent : Nat} {b : GasBidInfo}
    (hpct : b.bidPercentage ≤ 100) (hgas : 0 < gasUsage) :
    Priced est gasUsage bumpPercent (some b)
      (Fees.clamped (scalePercent (b.totalProfit / gasUsage) b.bidPercentage)
        (scalePercent est.maxPriorityFeePerGas bumpPercent) (scalePercent_le _ _)) := by
  refine ⟨Fees.priority_le _, ?_, ?_, fun hnone => nomatch hnone⟩
  · intro b' hb'
    obtain rfl := Option.some.inj hb'
    exact share_held_iff hpct hgas
  · intro b' hb' hlt
    obtain rfl := Option.some.inj hb'
    exact scalePercent_of_lt hlt

/-- What an estimate is priced at without a bid. -/
theorem priced_free {est : FeeEstimate} {gasUsage bumpPercent : Nat} :
    Priced est gasUsage bumpPercent none
      (Fees.clamped (saturatingAdd u128Max (est.maxFeePerGas - est.maxPriorityFeePerGas)
          (scalePercent est.maxPriorityFeePerGas bumpPercent))
        (scalePercent est.maxPriorityFeePerGas bumpPercent) (saturatingAdd_le _ _ _)) := by
  -- the bumped priority is part of the maximum, so the clamp leaves it alone
  have hclamp : scalePercent est.maxPriorityFeePerGas bumpPercent
      ≤ saturatingAdd u128Max (est.maxFeePerGas - est.maxPriorityFeePerGas)
        (scalePercent est.maxPriorityFeePerGas bumpPercent) :=
    Nat.le_min.mpr ⟨Nat.le_add_left _ _, scalePercent_le _ _⟩
  refine ⟨Fees.priority_le _, ?_, ?_, fun _ => ⟨rfl, Nat.min_eq_left hclamp⟩⟩
  · exact fun _ hb => nomatch hb
  · exact fun _ hb => nomatch hb

/-- A price is an error exactly for a bid above the whole profit or on no gas; otherwise it is what
`Priced` says. -/
theorem price1559_exact (est : FeeEstimate) (gasUsage bumpPercent : Nat)
    (bid : Option GasBidInfo) :
    ((∃ e, price1559 est gasUsage bumpPercent bid = .error e) ↔
      ∃ b, bid = some b ∧ (100 < b.bidPercentage ∨ gasUsage = 0)) ∧
    ∀ fees, price1559 est gasUsage bumpPercent bid = .ok fees →
      Priced est gasUsage bumpPercent bid fees := by
  cases bid with
  | none =>
    constructor
    · constructor
      · rintro ⟨e, he⟩
        exact nomatch he
      · rintro ⟨b, hb, -⟩
        exact nomatch hb
    · intro fees hfees
      obtain rfl := Except.ok.inj hfees
      exact priced_free
  | some b =>
    by_cases hreject : 100 < b.bidPercentage ∨ gasUsage = 0
    · have herr := @price1559_rejected est gasUsage bumpPercent b hreject
      refine ⟨iff_of_true herr ⟨b, rfl, hreject⟩, fun fees hfees => ?_⟩
      obtain ⟨e, he⟩ := herr
      exact nomatch he.symm.trans hfees
    · rw [not_or] at hreject
      have hpct := Nat.le_of_not_lt hreject.1
      have hgas := Nat.pos_of_ne_zero hreject.2
      rw [@price1559_bid est gasUsage bumpPercent b hpct hgas]
      constructor
      · constructor
        · rintro ⟨e, he⟩
          exact nomatch he
        · rintro ⟨b', hb', h⟩
          obtain rfl := Option.some.inj hb'
          exact absurd h (by omega)
      · intro fees hfees
        obtain rfl := Except.ok.inj hfees
        exact priced_bid hpct hgas

/-- Half of the largest profit. -/
def halfBid : GasBidInfo := ⟨u128Max, 50, Nat.le_refl _⟩

/-- The product of the break-even price with the share overflows, and the bid is priced at the whole
profit. -/
theorem overflowing_share_not_held :
    ∃ fees, price1559 ⟨100, 10⟩ 1 100 (some halfBid) = .ok fees ∧
      halfBid.totalProfit * halfBid.bidPercentage < 100 * fees.maxFeePerGas * 1 :=
  ⟨Fees.clamped u128Max 10 (Nat.le_refl _), by decide, by decide⟩

/-! ### Replacement fees -/

/-- The new fee clears the bump over the old one, or cannot rise any more. -/
def Cleared (old new : Nat) : Prop :=
  new = u128Max ∨ old < new ∧ 110 * old ≤ 100 * new

/-- Both fees of a replacement clear the bump, and the clamp does not lower the tip. -/
structure Clears (percent : Nat) (old new : Fees) : Prop where
  maxFee : Cleared old.maxFeePerGas new.maxFeePerGas
  priorityFee : Cleared old.maxPriorityFeePerGas new.maxPriorityFeePerGas
  unclamped : new.maxPriorityFeePerGas = scalePercent old.maxPriorityFeePerGas percent

/-- Raising a fee `n` times, whatever is rounded off is covered by what the percentage has above
110, until a product overflows. -/
def Covered (percent : Nat) : Nat → Nat → Prop
  | 0, _ => True
  | n + 1, v => u128Max < v * percent ∨
      v * percent % 100 ≤ v * (percent - 110) ∧ Covered percent n (v * percent / 100)

/-- A raised fee clears the bump exactly when it saturates or its rounding is covered. -/
theorem cleared_scalePercent_iff {v percent : Nat} (hv : 0 < v) (hp : 110 ≤ percent) :
    Cleared v (scalePercent v percent) ↔
      u128Max < v * percent ∨ v * percent % 100 ≤ v * (percent - 110) := by
  unfold Cleared
  rcases Nat.lt_or_ge u128Max (v * percent) with hlt | hle
  · rw [scalePercent_of_lt hlt]
    exact iff_of_true (Or.inl rfl) (Or.inl hlt)
  · rw [scalePercent_of_le hle]
    have hsplit : v * percent = v * (percent - 110) + v * 110 := by
      rw [← Nat.mul_add, Nat.sub_add_cancel hp]
    have hdiv := Nat.div_add_mod (v * percent) 100
    have hmax : 0 < u128Max := by decide
    omega

/-- A saturated fee stays saturated. -/
theorem covered_of_saturated {percent v : Nat} (hp : 110 ≤ percent) (hv : v = u128Max) (n : Nat) :
    Covered percent n v := by
  cases n with
  | zero => trivial
  | succ n =>
    have hmul : u128Max * 110 ≤ v * percent := hv ▸ Nat.mul_le_mul_left _ hp
    have hmax : u128Max < u128Max * 110 := by decide
    exact Or.inl (Nat.lt_of_lt_of_le hmax hmul)

/-- The first raise is covered, and those after it. -/
theorem covered_succ_iff {percent v : Nat} (hv : 0 < v) (hp : 110 ≤ percent) (n : Nat) :
    Covered percent (n + 1) v ↔
      Cleared v (scalePercent v percent) ∧ Covered percent n (scalePercent v percent) := by
  rw [cleared_scalePercent_iff hv hp]
  show (_ ∨ _ ∧ _) ↔ _
  rcases Nat.lt_or_ge u128Max (v * percent) with hlt | hle
  · have hsat := covered_of_saturated hp (scalePercent_of_lt hlt) n
    exact iff_of_true (Or.inl hlt) ⟨Or.inl hlt, hsat⟩
  · rw [scalePercent_of_le hle]
    constructor
    · rintro (hlt | ⟨hround, hrest⟩)
      · omega
      · exact ⟨Or.inr hround, hrest⟩
    · rintro ⟨hlt | hround, hrest⟩
      · exact Or.inl hlt
      · exact Or.inr ⟨hround, hrest⟩

/-- Raising both fees of a pair, the priority fee stays below the maximum by itself. -/
theorem escalate_maxPriorityFeePerGas (fees : Fees) (percent : Nat) :
    (escalate fees percent).maxPriorityFeePerGas
      = scalePercent fees.maxPriorityFeePerGas percent :=
  Nat.min_eq_left (scalePercent_mono fees.priority_le percent)

theorem clears_escalate_iff (fees : Fees) (percent : Nat) :
    Clears percent fees (escalate fees percent) ↔
      Cleared fees.maxFeePerGas (scalePercent fees.maxFeePerGas percent) ∧
        Cleared fees.maxPriorityFeePerGas (scalePercent fees.maxPriorityFeePerGas percent) := by
  have hprio := escalate_maxPriorityFeePerGas fees percent
  constructor
  · intro h
    exact ⟨h.maxFee, hprio ▸ h.priorityFee⟩
  · rintro ⟨hmax, hpriority⟩
    exact ⟨hmax, hprio.symm ▸ hpriority, hprio⟩

/-- The fees of a pair raised over and over clear the bump each time exactly when both are
covered. -/
theorem iterate_clears_iff {percent : Nat} (hp : 110 ≤ percent) {fees : Fees}
    (hfees : 0 < fees.maxPriorityFeePerGas) (n : Nat) :
    (List.iterate (escalate · percent) fees (n + 1)).IsChain (Clears percent) ↔
      Covered percent n fees.maxFeePerGas ∧ Covered percent n fees.maxPriorityFeePerGas := by
  induction n generalizing fees with
  | zero => exact iff_of_true (List.IsChain.singleton _) ⟨trivial, trivial⟩
  | succ n ih =>
    have hmax := Nat.lt_of_lt_of_le hfees fees.priority_le
    have hnext : 0 < (escalate fees percent).maxPriorityFeePerGas := by
      rw [escalate_maxPriorityFeePerGas]
      exact Nat.lt_of_lt_of_le hfees
        (le_scalePercent (Nat.le_trans fees.priority_le fees.fits) (by omega))
    show List.IsChain _ (fees :: escalate fees percent :: List.iterate _ _ n) ↔ _
    rw [List.isChain_cons_cons, clears_escalate_iff, covered_succ_iff hmax hp,
      covered_succ_iff hfees hp]
    have hrest := ih hnext
    rw [escalate_maxFeePerGas, escalate_maxPriorityFeePerGas] at hrest
    show _ ∧ List.IsChain _ (List.iterate _ (escalate fees percent) (n + 1)) ↔ _
    rw [hrest]
    constructor
    · rintro ⟨⟨hm, hq⟩, hm', hq'⟩
      exact ⟨⟨hm, hm'⟩, hq, hq'⟩
    · rintro ⟨⟨hm, hm'⟩, hq, hq'⟩
      exact ⟨⟨hm, hq⟩, hm', hq'⟩

/-- Every replacement of every run clears the bump over the submission before it exactly when, for
both initial fees, what is rounded off in raising them for each replacement of the policy is
covered. -/
theorem replacements_clear_iff (policy : ReplacementPolicy) (initial : Fees)
    (hinitial : 0 < initial.maxPriorityFeePerGas) :
    (∀ outcomes, (initial :: (ReplacementSchedule.new policy initial).replacements outcomes).IsChain
        (Clears policy.escalationPercent.percent)) ↔
      Covered policy.escalationPercent.percent policy.maxReplacements initial.maxFeePerGas ∧
        Covered policy.escalationPercent.percent policy.maxReplacements
          initial.maxPriorityFeePerGas := by
  rw [← iterate_clears_iff policy.escalationPercent.min_le hinitial]
  have hsubmissions : ∀ outcomes,
      initial :: (ReplacementSchedule.new policy initial).replacements outcomes
        = List.iterate (escalate · policy.escalationPercent.percent) initial
            (min (outcomes.count .timedOut) policy.maxReplacements + 1) := by
    intro outcomes
    rw [ReplacementSchedule.replacements_eq_iterate]
    rfl
  constructor
  · intro h
    -- a node that never confirms sees the whole schedule
    have hall := h (List.replicate policy.maxReplacements .timedOut)
    rwa [hsubmissions, List.count_replicate_self, Nat.min_self] at hall
  · intro h outcomes
    rw [hsubmissions, ← Nat.add_min_add_right, ← List.take_iterate]
    exact h.take _

/-- The smallest fees. -/
def unitFees : Fees := Fees.clamped 1 1 (by decide)

/-- One replacement at 110 %. -/
def smallestBump : ReplacementPolicy := ⟨1, .least⟩

/-- At 110 % a fee of 1 is rounded down to 1 again. -/
theorem unit_fees_not_raised :
    (ReplacementSchedule.new smallestBump unitFees).replacements [.timedOut] = [unitFees] ∧
      ¬ ∀ outcomes, (unitFees ::
        (ReplacementSchedule.new smallestBump unitFees).replacements outcomes).IsChain
          (Clears smallestBump.escalationPercent.percent) := by
  refine ⟨by decide, fun h => ?_⟩
  rcases (List.isChain_cons_cons.mp (h [.timedOut])).1.maxFee with hsat | ⟨hlt, -⟩
  · exact absurd hsat (by decide)
  · exact absurd hlt (by decide)

/-- Fees that are multiples of ten clear it. -/
theorem round_fees_raised :
    0 < (Fees.clamped 100 10 (by decide)).maxPriorityFeePerGas ∧
      ∀ outcomes, (Fees.clamped 100 10 (by decide) ::
        (ReplacementSchedule.new smallestBump (Fees.clamped 100 10 (by decide))).replacements
          outcomes).IsChain (Clears smallestBump.escalationPercent.percent) := by
  have hcovered : Covered 110 1 100 ∧ Covered 110 1 10 :=
    ⟨Or.inr ⟨by decide, trivial⟩, Or.inr ⟨by decide, trivial⟩⟩
  exact ⟨by decide, (replacements_clear_iff smallestBump _ (by decide)).mpr hcovered⟩

end ArtemisLight
