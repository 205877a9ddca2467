import ArtemisLight.Persistence.Persisted
import ArtemisLight.Persistence.Writer.Ledger

/-!
# Chains and the sources that report them

A chain is the list of events of every height.  `NonReorganising chain H` says that the collectors
in `H` report one fixed chain: range queries answer exactly, and a live stream yields the events
from some height at most one above the tip on, whole blocks at a time.
-/

namespace ArtemisLight

variable {E : Type}

/-- The chain's events at the heights `lo..=hi`, in chain order. -/
def chainEvents (chain : Nat → List E) (lo hi : Nat) : List (BlockPosition × E) :=
  (List.range' lo (hi + 1 - lo)).flatMap fun h => (chain h).map fun e => (⟨h⟩, e)

variable {chain : Nat → List E} {lo hi : Nat}

theorem mem_chainEvents {x : BlockPosition × E} :
    x ∈ chainEvents chain lo hi ↔ lo ≤ x.1.block ∧ x.1.block ≤ hi ∧ x.2 ∈ chain x.1.block := by
  obtain ⟨⟨k⟩, e⟩ := x
  simp only [chainEvents, List.mem_flatMap, List.mem_range'_1, List.mem_map, Prod.mk.injEq,
    BlockPosition.mk.injEq]
  constructor
  · rintro ⟨h, hh, e', he', rfl, rfl⟩
    exact ⟨hh.1, by omega, he'⟩
  · rintro ⟨hlo, hhi, he⟩
    exact ⟨k, ⟨hlo, by omega⟩, e, he, rfl, rfl⟩

theorem chainEvents_of_lt (h : hi < lo) : chainEvents chain lo hi = [] := by
  have : hi + 1 - lo = 0 := by omega
  simp [chainEvents, this]

@[simp] theorem chainEvents_self (k : Nat) :
    chainEvents chain k k = (chain k).map fun e => (⟨k⟩, e) := by
  have : k + 1 - k = 1 := by omega
  simp [chainEvents, this]

/-- Adjacent ranges concatenate. -/
theorem chainEvents_append {mid : Nat} (h₁ : lo ≤ mid + 1) (h₂ : mid ≤ hi) :
    chainEvents chain lo mid ++ chainEvents chain (mid + 1) hi = chainEvents chain lo hi := by
  unfold chainEvents
  rw [← List.flatMap_append]
  congr 1
  have h₃ : hi + 1 - lo = (mid + 1 - lo) + (hi + 1 - (mid + 1)) := by omega
  have h₄ : mid + 1 = lo + 1 * (mid + 1 - lo) := by omega
  rw [h₃, ← List.range'_append, ← h₄]

theorem chainEvents_succ (h : lo ≤ hi + 1) :
    chainEvents chain lo (hi + 1)
      = chainEvents chain lo hi ++ (chain (hi + 1)).map fun e => (⟨hi + 1⟩, e) := by
  rw [← chainEvents_append h (Nat.le_succ hi), chainEvents_self]

theorem chainEvents_eq_nil (h : ∀ k, lo ≤ k → k ≤ hi → chain k = []) :
    chainEvents chain lo hi = [] := by
  rw [List.eq_nil_iff_forall_not_mem]
  intro x hx
  obtain ⟨hlo, hhi, he⟩ := mem_chainEvents.mp hx
  rw [h _ hlo hhi] at he
  exact absurd he (by simp)

/-- A range whose only events are in its last block. -/
theorem chainEvents_last {p : Nat} (h : ∀ k, k < p → lo ≤ k → chain k = []) :
    chainEvents chain lo p = if lo ≤ p then (chain p).map fun e => (⟨p⟩, e) else [] := by
  by_cases hlo : lo ≤ p
  · rw [if_pos hlo]
    rcases Nat.eq_or_lt_of_le hlo with rfl | hlt
    · exact chainEvents_self lo
    · obtain ⟨q, rfl⟩ : ∃ q, p = q + 1 := ⟨p - 1, by omega⟩
      rw [chainEvents_succ hlo, chainEvents_eq_nil fun k hk hkq => h k (by omega) hk]
      rfl
  · rw [if_neg hlo, chainEvents_of_lt (by omega)]

/-- A range that ends in a block after a gap without events. -/
theorem chainEvents_gap {w p : Nat} (hwp : w < p)
    (hgap : ∀ k, w < k → k < p → lo ≤ k → chain k = []) :
    chainEvents chain lo p = chainEvents chain lo w ++
      (if lo ≤ p then (chain p).map fun e => (⟨p⟩, e) else []) := by
  by_cases hlo : lo ≤ p
  · obtain ⟨q, rfl⟩ : ∃ q, p = q + 1 := ⟨p - 1, by omega⟩
    rw [chainEvents_succ hlo, if_pos hlo]
    congr 1
    by_cases hlw : lo ≤ w + 1
    · have hnil : chainEvents chain (w + 1) q = [] :=
        chainEvents_eq_nil fun k hk hkq => hgap k (by omega) (by omega) (by omega)
      rw [← chainEvents_append hlw (by omega : w ≤ q), hnil, List.append_nil]
    · rw [chainEvents_of_lt (by omega : w < lo)]
      exact chainEvents_eq_nil fun k hk hkq => hgap k (by omega) (by omega) hk
  · rw [if_neg hlo, chainEvents_of_lt (by omega), chainEvents_of_lt (by omega)]
    rfl

theorem eventsAt_map_block (es : List E) (h k : Nat) :
    eventsAt (es.map fun e => (⟨h⟩, e)) k = if k = h then es else [] := by
  unfold eventsAt
  rw [List.filter_map]
  by_cases hk : k = h
  · simp [hk, Function.comp_def]
  · have : (fun x : BlockPosition × E => decide (x.1.block = k)) ∘ (fun e => (⟨h⟩, e))
        = fun _ => false := by
      funext e
      simpa using fun h' : h = k => hk h'.symm
    simp [hk, this]

/-- What a range holds at one height. -/
theorem eventsAt_chainEvents (k : Nat) :
    eventsAt (chainEvents chain lo hi) k = if lo ≤ k ∧ k ≤ hi then chain k else [] := by
  induction hi with
  | zero =>
    rcases Nat.eq_zero_or_pos lo with rfl | hlo
    · rw [chainEvents_self, eventsAt_map_block]
      by_cases hk : k = 0 <;> simp [hk]
    · rw [chainEvents_of_lt hlo, eventsAt_nil, if_neg (by omega)]
  | succ hi ih =>
    by_cases hlo : lo ≤ hi + 1
    · rw [chainEvents_succ hlo, eventsAt_append, ih, eventsAt_map_block]
      by_cases hk : k = hi + 1
      · subst hk
        rw [if_neg (by omega), if_pos rfl, if_pos ⟨hlo, Nat.le_refl _⟩, List.nil_append]
      · rw [if_neg hk, List.append_nil]
        by_cases hr : lo ≤ k ∧ k ≤ hi
        · rw [if_pos hr, if_pos ⟨hr.1, by omega⟩]
        · rw [if_neg hr, if_neg (by omega)]
    · rw [chainEvents_of_lt (by omega), eventsAt_nil, if_neg (by omega)]

theorem chainEvents_pairwise :
    (chainEvents chain lo hi).Pairwise fun x y => x.1.block ≤ y.1.block := by
  induction hi with
  | zero =>
    rcases Nat.eq_zero_or_pos lo with rfl | hlo
    · rw [chainEvents_self, List.pairwise_map]
      exact List.pairwise_of_forall fun _ _ => Nat.le_refl _
    · rw [chainEvents_of_lt hlo]
      exact List.Pairwise.nil
  | succ hi ih =>
    by_cases hlo : lo ≤ hi + 1
    · rw [chainEvents_succ hlo, List.pairwise_append]
      refine ⟨ih, ?_, fun x hx y hy => ?_⟩
      · rw [List.pairwise_map]
        exact List.pairwise_of_forall fun _ _ => Nat.le_refl _
      · obtain ⟨e, -, rfl⟩ := List.mem_map.mp hy
        have := (mem_chainEvents.mp hx).2.1
        exact Nat.le_succ_of_le this
    · rw [chainEvents_of_lt (by omega)]
      exact List.Pairwise.nil

/-- Below the first event of a range its blocks are empty. -/
theorem chain_eq_nil_of_head {first : BlockPosition × E}
    (hf : first ∈ (chainEvents chain lo hi).head?) {k : Nat} (hlo : lo ≤ k)
    (hk : k < first.1.block) :
    chain k = [] := by
  by_contra hne
  obtain ⟨e, he⟩ := List.exists_mem_of_ne_nil _ hne
  have hhi := (mem_chainEvents.mp (List.mem_of_mem_head? hf)).2.1
  have hmem : (⟨k⟩, e) ∈ chainEvents chain lo hi :=
    mem_chainEvents.mpr ⟨hlo, Nat.le_trans (Nat.le_of_lt hk) hhi, he⟩
  have hpw : (chainEvents chain lo hi).Pairwise _ := chainEvents_pairwise
  rcases hl : chainEvents chain lo hi with _ | ⟨x, l⟩
  · rw [hl] at hmem
    exact absurd hmem (by simp)
  · rw [hl] at hmem hf hpw
    obtain rfl : x = first := Option.some.inj hf
    rcases List.mem_cons.mp hmem with h | h
    · rw [← h] at hk
      exact absurd hk (Nat.lt_irrefl k)
    · have := List.rel_of_pairwise_cons hpw h
      simp only at this
      omega

/-- A live stream that reports a chain from the height `m` on, in order: the part of it that is
read. -/
def LiveFrom (chain : Nat → List E) (m : Nat) (live : List (Indexed BlockPosition E)) : Prop :=
  ∃ n, live <+: asLive (chainEvents chain m n)

variable {τ : Type} [PersistableCollector τ BlockPosition E]

/-- The collectors in `H` report the chain `chain`, which never reorganises. -/
structure NonReorganising (chain : Nat → List E) (H : τ → Prop) : Prop where
  query_closed : ∀ c, H c → ∀ a b : BlockPosition,
    H (PersistableCollector.queryRange (E := E) c a b).2
  query_exact : ∀ c, H c → ∀ (a b : BlockPosition) stream c',
    PersistableCollector.queryRange c a b = (.ok stream, c') →
      stream = chainEvents chain a.block b.block
  tip_closed : ∀ c, H c → H (PersistableCollector.tip (P := BlockPosition) E c).2
  subscribe_closed : ∀ c, H c →
    H (PersistableCollector.subscribeIndexed (P := BlockPosition) (E := E) c).2
  /-- The live stream is opened before the tip is queried. -/
  subscribe_live : ∀ c, H c → ∀ (live : List (Indexed BlockPosition E)) c₁ (tip : BlockPosition) c₂,
    PersistableCollector.subscribeIndexed c = (.ok live, c₁) →
    PersistableCollector.tip E c₁ = (.ok tip, c₂) → ∃ m ≤ tip.block + 1, LiveFrom chain m live

/-- The collectors in `H` answer every range query. -/
def Answers (E : Type) {τ : Type} [PersistableCollector τ BlockPosition E] (H : τ → Prop) : Prop :=
  ∀ c, H c → ∀ a b : BlockPosition, ∃ stream c',
    PersistableCollector.queryRange (E := E) c a b = (.ok stream, c')

/-- The heights with events and the tip a run sees, the confirmation depth added, fit in `i64`. -/
structure SmallHeights {ρ : Type} (chain : Nat → List E) (p : Persisted ρ) (c : τ) : Prop where
  heights : ∀ k, chain k ≠ [] → k + p.confirmationDepth ≤ i64Max
  tip : ∀ (live : List (Indexed BlockPosition E)) c₁ (tip : BlockPosition) c₂,
    p.liveSource c = (.ok live, c₁) → PersistableCollector.tip E c₁ = (.ok tip, c₂) →
      tip.block + p.confirmationDepth ≤ i64Max

end ArtemisLight
