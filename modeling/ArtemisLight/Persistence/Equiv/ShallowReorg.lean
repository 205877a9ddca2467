import ArtemisLight.Persistence.Equiv.DeepReorg
import ArtemisLight.Persistence.Equiv.GapFree
import ArtemisLight.Persistence.Equiv.Overlap
import ArtemisLight.Persistence.Evolution
import ArtemisLight.Persistence.Writer.Equiv.Delivery
import ArtemisLight.Persistence.Writer.Equiv.Emission

/-!
# Shallow reorgs

The backfill is a snapshot of one moment of a chain that reorganises, while the live stream was
opened at an earlier moment and reports everything since.  Until the live stream has caught up with
the snapshot, the window holds blocks of both (`Races`); from then on it holds the canonical chain
(`CaughtUp`).  As long as no reorg reaches down to what is settled or written, only canonical blocks
are written, each of them once.

* `shallow_evolution_harmless_iff`: when such a chain does no harm to what is written and delivered;
* `shallow_reorgs_exact`: when a subscription to such a chain halts, and what it has written and
  delivered if it does not.

One turn of the chain is a block (`Races.extend`, `CaughtUp.extend`) or a reorg (`Races.reorg`,
`CaughtUp.reorg`), and what it leaves of healthy writers is `Upkeep.turn`; `Races.step` and
`CaughtUp.step` put them together.  The race begins behind the backfill (`Seeded.races`) and ends
with the snapshot's chain (`Races.follows`).  `upkeep_afterTurns` is the induction over the turns,
`Upkeep.lt_of_clean` says which block halts the window, and `CaughtUp.canonical` what the writers
have done at the end.  `ShallowEvolution` is the setting of both results, which
`ShallowEvolution.clean_iff` and `ShallowEvolution.canonical` make up.
-/

namespace ArtemisLight

open ConfirmationWindow CanonicalChain

variable {σ ρ E : Type}

/-! ### The two phases -/

/-- The height is one the backfill covers, or the writers hold something there. -/
def Spanned (lo : Nat) (s : Pipeline σ ρ BlockPosition E) (k : Nat) : Prop :=
  lo ≤ k ∨ heldEvents s.io.effects k ≠ []

/-- The live stream has reported the chain `c` and is behind the snapshot by the turns `rest`.  A
block that none of them replaces is held as it is, a group from the backfill is the snapshot's, and
any other group is a block of `c`. -/
structure Races (lo : Nat) (mark : Option Nat) (c : CanonicalChain E) (rest : List (Turn E))
    (s : Pipeline σ ρ BlockPosition E) : Prop where
  stable : ∀ k < c.next, Stable rest k → Spanned lo s k → heldEvents s.io.effects k = c.block k
  seeded : ∀ k, s.window.seededAt k = true →
    heldEvents s.io.effects k = (c.run rest).block k ∧ ∃ h ∈ s.window.head, k ≤ h
  live : ∀ k, (∀ f ∈ s.window.flushed, f < k) → s.window.seededAt k = false →
    heldEvents s.io.effects k ≠ [] → c.block k ≠ []
  marked : ∀ m ∈ mark, ∀ k ≤ m, Spanned lo s k →
    heldEvents s.io.effects k = (c.run rest).block k
  flushed : ∀ f ∈ s.window.flushed, f ∈ mark ∨ f < c.next

/-- The writers hold the canonical chain. -/
structure CaughtUp (lo : Nat) (mark : Option Nat) (c : CanonicalChain E)
    (s : Pipeline σ ρ BlockPosition E) : Prop where
  held : ∀ k, Spanned lo s k → heldEvents s.io.effects k = c.block k
  flushed : ∀ f ∈ s.window.flushed, f ∈ mark ∨ f < c.next

section Phases

variable {lo key : Nat} {mark : Option Nat} {c : CanonicalChain E} {rest : List (Turn E)}
  {events : List E} {removed : List Nat} {s t : Pipeline σ ρ BlockPosition E}

/-- Where nothing changes, nothing is covered that was not. -/
theorem Spanned.of_held (h : Spanned lo t key)
    (heq : heldEvents t.io.effects key = heldEvents s.io.effects key) : Spanned lo s key :=
  h.imp id fun hne => by rwa [heq] at hne

theorem Emitted.below' (h : Emitted key events s t) {k : Nat} (hk : k < key) :
    heldEvents t.io.effects k = heldEvents s.io.effects k := by
  rw [heldEvents, h.below k hk]

/-- Once the live stream has reported the snapshot's chain, the two phases meet. -/
theorem Races.follows (h : Races lo mark c [] s) : CaughtUp lo mark c s := by
  refine ⟨fun k hk => ?_, h.flushed⟩
  by_cases hnext : k < c.next
  · exact h.stable k hnext (fun _ _ hm => absurd hm (by simp)) hk
  · have hnil : c.block k = [] := c.unfilled k (Nat.le_of_not_lt hnext)
    by_cases hf : ∃ f ∈ s.window.flushed, k ≤ f
    · -- at or below the mark it is a settled height of the snapshot
      obtain ⟨f, hfm, hle⟩ := hf
      have hmark := (h.flushed f hfm).resolve_right (by omega)
      exact h.marked f hmark k hle hk
    · have habove : ∀ f ∈ s.window.flushed, f < k := fun f hfm =>
        Nat.lt_of_not_le fun hle => hf ⟨f, hfm, hle⟩
      cases hs : s.window.seededAt k with
      | true => exact (h.seeded k hs).1
      | false =>
        rw [hnil]
        by_contra hne
        exact h.live k habove hs hne hnil

/-! ### Another block -/

/-- The next block of the live stream while it is behind the snapshot. -/
theorem Races.extend (h : Races lo mark c (.extend events :: rest) s) (hne : events ≠ [])
    (hemit : Emitted c.next events s t) (hf : ∀ f ∈ s.window.flushed, f < c.next)
    (hmark : ∀ m ∈ mark, ∃ f ∈ s.window.flushed, m ≤ f) :
    Races lo mark (c.turn (.extend events)) rest t := by
  -- a group from the backfill above the block makes its first event a rewind
  have hreorg : ∀ k, c.next < k → s.window.seededAt k = true →
      s.window.reorgAt c.next = true := by
    intro k hk hs
    obtain ⟨b, hb, hle⟩ := (h.seeded k hs).2
    rw [reorgAt, Option.mem_def.mp hb]
    exact decide_eq_true (by omega)
  have hnone : ∀ k, c.next ≤ k → s.window.seededAt k = false → heldEvents s.io.effects k = [] := by
    intro k hk hs
    by_contra hheld
    exact h.live k (fun f hfm => Nat.lt_of_lt_of_le (hf f hfm) hk) hs hheld (c.unfilled k hk)
  have hat : heldEvents t.io.effects c.next = events := by
    rw [hemit.at_key]
    cases hr : s.window.reorgAt c.next
    · cases hs : s.window.seededAt c.next
      · rw [hnone c.next (Nat.le_refl _) hs]
        rfl
      · rfl
    · rfl
  have hblock : ∀ k, k ≠ c.next → (c.turn (.extend events)).block k = c.block k := fun k hk =>
    Function.update_of_ne hk _ _
  have hself : (c.turn (.extend events)).block c.next = events := Function.update_self _ _ _
  refine ⟨fun k hk hs hc => ?_, fun k hk => ?_, fun k hkf hs hheld => ?_, fun m hm k hkm hc => ?_,
    fun f hfm => ?_⟩
  · rcases Nat.lt_or_eq_of_le (Nat.le_of_lt_succ hk) with hlt | rfl
    · rw [hemit.below' hlt, hblock k (Nat.ne_of_lt hlt)]
      refine h.stable k hlt (fun key removed hm => ?_) (hc.of_held (hemit.below' hlt))
      exact hs key removed ((List.mem_cons.mp hm).resolve_left (by simp))
    · rw [hat, hself]
  · obtain ⟨hold, hkn, hrew⟩ := hemit.seeded k hk
    have hlt : k < c.next := by
      refine Nat.lt_of_le_of_ne (Nat.le_of_not_lt fun hgt => ?_) hkn
      exact absurd (hreorg k hgt hold) (by simp [hrew hgt])
    refine ⟨?_, c.next, hemit.head, Nat.le_of_lt hlt⟩
    rw [hemit.below' hlt]
    exact (h.seeded k hold).1
  · have hkf' : ∀ f ∈ s.window.flushed, f < k := by
      intro f hfm
      obtain ⟨f', hfm', hle⟩ := hemit.flushed_le f hfm
      exact Nat.lt_of_le_of_lt hle (hkf f' hfm')
    rcases Nat.lt_trichotomy k c.next with hlt | rfl | hgt
    · rw [hblock k (Nat.ne_of_lt hlt)]
      rw [hemit.kept k hlt hkf] at hs
      rw [hemit.below' hlt] at hheld
      exact h.live k hkf' hs hheld
    · rwa [hself]
    · rw [hemit.above k hgt] at hheld
      cases hr : s.window.reorgAt c.next with
      | true =>
        rw [hr] at hheld
        exact absurd rfl hheld
      | false =>
        rw [hr] at hheld
        refine absurd (hnone k (Nat.le_of_lt hgt) (Bool.eq_false_iff.mpr fun hold => ?_)) hheld
        exact absurd (hreorg k hgt hold) (by simp [hr])
  · obtain ⟨f, hfm, hle⟩ := hmark m hm
    have hlt : k < c.next := Nat.lt_of_le_of_lt (Nat.le_trans hkm hle) (hf f hfm)
    rw [hemit.below' hlt]
    exact h.marked m hm k hkm (hc.of_held (hemit.below' hlt))
  · exact ((hemit.flushed f hfm).elim (h.flushed f) Or.inr).imp id Nat.lt_succ_of_lt

/-- A block without events, of which the live stream reports nothing. -/
theorem Races.skip (h : Races lo mark c (.extend [] :: rest) s) :
    Races lo mark (c.turn (.extend [])) rest s := by
  have hblock : ∀ k, (c.turn (.extend [])).block k = c.block k := by
    intro k
    show Function.update c.block c.next [] k = _
    by_cases hk : k = c.next
    · rw [hk, Function.update_self, c.unfilled c.next (Nat.le_refl _)]
    · exact Function.update_of_ne hk _ _
  refine ⟨fun k hk hs hc => ?_, h.seeded, fun k hkf hs hheld => ?_, h.marked,
    fun f hf => (h.flushed f hf).imp id Nat.lt_succ_of_lt⟩
  · rw [hblock]
    rcases Nat.lt_or_eq_of_le (Nat.le_of_lt_succ hk) with hlt | rfl
    · refine h.stable k hlt (fun key removed hm => ?_) hc
      exact hs key removed ((List.mem_cons.mp hm).resolve_left (by simp))
    · -- the snapshot has the same empty block
      have hnil : (c.run (.extend [] :: rest)).block c.next = [] := by
        show ((c.turn (.extend [])).run rest).block c.next = []
        rw [run_block_of_stable (Nat.lt_succ_self _) hs, hblock, c.unfilled _ (Nat.le_refl _)]
      rw [c.unfilled c.next (Nat.le_refl _)]
      by_cases hf : ∃ f ∈ s.window.flushed, c.next ≤ f
      · obtain ⟨f, hfm, hle⟩ := hf
        have hmark := (h.flushed f hfm).resolve_right (by omega)
        rw [h.marked f hmark _ hle hc, hnil]
      · have habove : ∀ f ∈ s.window.flushed, f < c.next := fun f hfm =>
          Nat.lt_of_not_le fun hle => hf ⟨f, hfm, hle⟩
        cases hsd : s.window.seededAt c.next with
        | true => rw [(h.seeded _ hsd).1, hnil]
        | false =>
          by_contra hheld
          exact h.live _ habove hsd hheld (c.unfilled _ (Nat.le_refl _))
  · rw [hblock]
    exact h.live k hkf hs hheld

/-- The next block once the live stream has caught up. -/
theorem CaughtUp.extend (h : CaughtUp lo mark c s) (hemit : Emitted c.next events s t) :
    CaughtUp lo mark (c.turn (.extend events)) t := by
  have hnil : ∀ k, c.next ≤ k → heldEvents s.io.effects k = [] := by
    intro k hk
    by_contra hne
    exact hne ((h.held k (Or.inr hne)).trans (c.unfilled k hk))
  refine ⟨fun k hc => ?_, fun f hf => ?_⟩
  · show _ = Function.update c.block c.next events k
    rcases Nat.lt_trichotomy k c.next with hlt | rfl | hgt
    · rw [hemit.below' hlt, Function.update_of_ne (Nat.ne_of_lt hlt)]
      exact h.held k (hc.of_held (hemit.below' hlt))
    · rw [hemit.at_key, hnil _ (Nat.le_refl _), Function.update_self, ite_self, List.nil_append]
    · rw [hemit.above k hgt, hnil k (Nat.le_of_lt hgt), ite_self,
        Function.update_of_ne (Nat.ne_of_gt hgt), c.unfilled k (Nat.le_of_lt hgt)]
  · exact ((hemit.flushed f hf).elim (h.flushed f) Or.inr).imp id Nat.lt_succ_of_lt

theorem CaughtUp.skip (h : CaughtUp lo mark c s) : CaughtUp lo mark (c.turn (.extend [])) s := by
  refine ⟨fun k hc => ?_, fun f hf => (h.flushed f hf).imp id Nat.lt_succ_of_lt⟩
  show _ = Function.update c.block c.next [] k
  rw [h.held k hc]
  by_cases hk : k = c.next
  · rw [hk, Function.update_self, c.unfilled c.next (Nat.le_refl _)]
  · rw [Function.update_of_ne hk]

/-! ### A reorg -/

/-- What retractions of a reorg at `key` leave of a block. -/
theorem Withdrawn.truncate (hout : Withdrawn removed s t)
    (hremoved : removed.Perm (c.heights key)) {k : Nat} :
    (k < key → heldEvents t.io.effects k = heldEvents s.io.effects k ∧
        t.window.seededAt k = s.window.seededAt k) ∧
      (key ≤ k → c.block k ≠ [] →
        heldEvents t.io.effects k = [] ∧ t.window.seededAt k = false) ∧
      (heldEvents t.io.effects k = [] ∨ heldEvents t.io.effects k = heldEvents s.io.effects k ∧
        t.window.seededAt k = s.window.seededAt k) := by
  have hmem : ∀ x, x ∈ removed ↔ key ≤ x ∧ c.block x ≠ [] := fun x => by
    rw [hremoved.mem_iff, mem_heights]
  refine ⟨fun hk => ?_, fun hk hne => hout.reached k k ((hmem k).mpr ⟨hk, hne⟩) (Nat.le_refl k), ?_⟩
  · obtain ⟨hheld, hseeded⟩ := hout.others k fun x hx =>
      Nat.lt_of_lt_of_le hk ((hmem x).mp hx).1
    exact ⟨by rw [heldEvents, hheld], hseeded⟩
  · by_cases hreach : ∃ x ∈ removed, x ≤ k
    · obtain ⟨x, hx, hle⟩ := hreach
      exact Or.inl (hout.reached k x hx hle).1
    · obtain ⟨hheld, hseeded⟩ := hout.others k fun x hx =>
        Nat.lt_of_not_le fun hle => hreach ⟨x, hx, hle⟩
      exact Or.inr ⟨by rw [heldEvents, hheld], hseeded⟩

/-- A reorg that the live stream reports while it is behind the snapshot. -/
theorem Races.reorg (h : Races lo mark c (.reorg key removed :: rest) s)
    (hout : Withdrawn removed s t) (hremoved : removed.Perm (c.heights key))
    (hf : ∀ f ∈ s.window.flushed, f < key)
    (hmark : ∀ m ∈ mark, ∃ f ∈ s.window.flushed, m ≤ f) :
    Races lo mark (c.turn (.reorg key removed)) rest t := by
  have hblock : ∀ k < key, (c.turn (.reorg key removed)).block k = c.block k := fun k hk =>
    if_pos hk
  refine ⟨fun k hk hs hc => ?_, fun k hk => ?_, fun k hkf hs hheld => ?_, fun m hm k hkm hc => ?_,
    fun f hfm => ?_⟩
  · obtain ⟨hnext, hkey⟩ := Nat.lt_min.mp hk
    obtain ⟨hheld, -⟩ := (hout.truncate hremoved).1 hkey
    rw [hheld, hblock k hkey]
    refine h.stable k hnext (fun key' removed' hm => ?_) (hc.of_held hheld)
    rcases List.mem_cons.mp hm with hm | hm
    · obtain ⟨rfl, -⟩ := Turn.reorg.inj hm
      exact hkey
    · exact hs key' removed' hm
  · -- a group from the backfill that is still marked was not reached
    have hall : ∀ x ∈ removed, k < x := fun x hx => Nat.lt_of_not_le fun hle =>
      absurd (hout.reached k x hx hle).2 (by simp [hk])
    obtain ⟨hheld, hseeded⟩ := hout.others k hall
    obtain ⟨htarget, hhead⟩ := h.seeded k (hseeded.symm.trans hk)
    exact ⟨by rw [heldEvents, hheld]; exact htarget, hout.head k hall hhead⟩
  · rcases (hout.truncate hremoved (k := k)).2.2 with hnil | ⟨hsame, hseeded⟩
    · exact absurd hnil hheld
    · rw [hout.flushed] at hkf
      rw [hsame] at hheld
      have hlive := h.live k hkf (hseeded.symm.trans hs) hheld
      have hkey : k < key := Nat.lt_of_not_le fun hle =>
        hheld (hsame.symm.trans ((hout.truncate hremoved).2.1 hle hlive).1)
      rwa [hblock k hkey]
  · obtain ⟨f, hfm, hle⟩ := hmark m hm
    obtain ⟨hheld, -⟩ := (hout.truncate hremoved (k := k)).1
      (Nat.lt_of_le_of_lt (Nat.le_trans hkm hle) (hf f hfm))
    rw [hheld]
    exact h.marked m hm k hkm (hc.of_held hheld)
  · rw [hout.flushed] at hfm
    exact (h.flushed f hfm).imp id fun hlt => Nat.lt_min.mpr ⟨hlt, hf f hfm⟩

/-- A reorg once the live stream has caught up. -/
theorem CaughtUp.reorg (h : CaughtUp lo mark c s) (hout : Withdrawn removed s t)
    (hremoved : removed.Perm (c.heights key)) (hf : ∀ f ∈ s.window.flushed, f < key) :
    CaughtUp lo mark (c.turn (.reorg key removed)) t := by
  refine ⟨fun k hc => ?_, fun f hfm => ?_⟩
  · show _ = Ledger.truncate c.block key k
    unfold Ledger.truncate
    split
    · rename_i hkey
      obtain ⟨hheld, -⟩ := (hout.truncate hremoved).1 hkey
      rw [hheld]
      exact h.held k (hc.of_held hheld)
    · rename_i hkey
      rcases (hout.truncate hremoved (k := k)).2.2 with hnil | ⟨hsame, -⟩
      · exact hnil
      · by_cases hne : c.block k = []
        · rw [hsame, h.held k (hc.of_held hsame), hne]
        · exact ((hout.truncate hremoved).2.1 (Nat.le_of_not_lt hkey) hne).1
  · rw [hout.flushed] at hfm
    exact (h.flushed f hfm).imp id fun hlt => Nat.lt_min.mpr ⟨hlt, hf f hfm⟩

end Phases

/-! ### One turn -/

/-- A turn that healthy writers survive: a block above the mark, or a reorg above the mark and above
everything written. -/
def Turn.Shallow (mark : Option Nat) (c : CanonicalChain E)
    (effects : List (Effect BlockPosition E)) : Turn E → Prop
  | .extend events => events ≠ [] → ∀ m ∈ mark, m < c.next
  | .reorg key _ => (∀ m ∈ mark, m < key) ∧ ∀ g ∈ writes effects, g.1.block < key

/-- A shallow reorg stays above the flushed mark. -/
theorem Sealed.shallow {lo key : Nat} {mark : Option Nat} {c : CanonicalChain E}
    {removed : List Nat} {w : ConfirmationWindow BlockPosition}
    {effects : List (Effect BlockPosition E)} (h : Sealed lo mark w effects)
    (hshallow : (Turn.reorg key removed).Shallow mark c effects) :
    ∀ f ∈ w.flushed, f < key := by
  intro f hf
  rcases h.flushed f hf with hm | ⟨g, hg, rfl⟩
  · exact hshallow.1 f hm
  · exact hshallow.2 g hg

section Step

variable [Store σ BlockPosition] [RecordOps ρ E] {W : σ → Prop} {R : ρ → Prop} {D : E → Prop}
  {depth lo : Nat} {seed : Option BlockPosition} {mark : Option Nat} {c : CanonicalChain E}
  {t : Turn E} {rest : List (Turn E)} {s : Pipeline σ ρ BlockPosition E}

/-- What one turn leaves of healthy writers, whose flushed mark is below the next block. -/
theorem Upkeep.turn (hW : Reliable BlockPosition W) (hR : Encodes D R) (hdepth : 0 < depth)
    (hup : Upkeep W R depth lo seed mark s)
    (hflushed : ∀ f ∈ s.window.flushed, f ∈ mark ∨ f < c.next) (hreports : c.Reports t)
    (hitems : ∀ p e, .event p e ∈ c.items t → D e ∧ p.block < u64Max)
    (hshallow : t.Shallow mark c s.io.effects) :
    Upkeep W R depth lo seed mark ((c.items t).foldl Pipeline.liveStep s) ∧
      match t with
      | .extend events => events ≠ [] → (∀ f ∈ s.window.flushed, f < c.next) ∧
          Emitted c.next events s ((c.items t).foldl Pipeline.liveStep s)
      | .reorg key removed => (∀ f ∈ s.window.flushed, f < key) ∧
          Withdrawn removed s ((c.items t).foldl Pipeline.liveStep s) := by
  cases t with
  | extend events =>
    by_cases hne : events = []
    · subst hne
      exact ⟨hup, fun hne => absurd rfl hne⟩
    · have hf : ∀ f ∈ s.window.flushed, f < c.next := fun f hfm =>
        (hflushed f hfm).elim (hshallow hne f) id
      have hmem : ∀ e ∈ events, .event ⟨c.next⟩ e ∈ c.items (.extend events) := fun e he =>
        List.mem_map.mpr ⟨_, List.mem_map.mpr ⟨e, he, rfl⟩, rfl⟩
      obtain ⟨e, he⟩ := List.exists_mem_of_ne_nil _ hne
      obtain ⟨hkeep, hemit⟩ := hup.block hW hR hdepth hne
        (fun e he => (hitems _ e (hmem e he)).1) hf (hitems _ e (hmem e he)).2
      exact ⟨hkeep, fun _ => ⟨hf, hemit⟩⟩
  | reorg key removed =>
    have hf := hup.sealed.shallow hshallow
    obtain ⟨hkeep, hout⟩ := hup.retractions fun k hk f hfm =>
      Nat.lt_of_lt_of_le (hf f hfm) (mem_heights.mp (hreports.mem_iff.mp hk)).1
    exact ⟨hkeep, hf, hout⟩

theorem Races.step (hW : Reliable BlockPosition W) (hR : Encodes D R) (hdepth : 0 < depth)
    (hup : Upkeep W R depth lo seed mark s) (h : Races lo mark c (t :: rest) s)
    (hreports : c.Reports t) (hitems : ∀ p e, .event p e ∈ c.items t → D e ∧ p.block < u64Max)
    (hshallow : t.Shallow mark c s.io.effects) :
    Upkeep W R depth lo seed mark ((c.items t).foldl Pipeline.liveStep s) ∧
      Races lo mark (c.turn t) rest ((c.items t).foldl Pipeline.liveStep s) := by
  obtain ⟨hkeep, hturn⟩ := hup.turn hW hR hdepth h.flushed hreports hitems hshallow
  refine ⟨hkeep, ?_⟩
  cases t with
  | extend events =>
    by_cases hne : events = []
    · subst hne
      exact h.skip
    · obtain ⟨hf, hemit⟩ := hturn hne
      exact h.extend hne hemit hf hup.sealed.mark_le
  | reorg key removed => exact h.reorg hturn.2 hreports hturn.1 hup.sealed.mark_le

theorem CaughtUp.step (hW : Reliable BlockPosition W) (hR : Encodes D R) (hdepth : 0 < depth)
    (hup : Upkeep W R depth lo seed mark s) (h : CaughtUp lo mark c s)
    (hreports : c.Reports t) (hitems : ∀ p e, .event p e ∈ c.items t → D e ∧ p.block < u64Max)
    (hshallow : t.Shallow mark c s.io.effects) :
    Upkeep W R depth lo seed mark ((c.items t).foldl Pipeline.liveStep s) ∧
      CaughtUp lo mark (c.turn t) ((c.items t).foldl Pipeline.liveStep s) := by
  obtain ⟨hkeep, hturn⟩ := hup.turn hW hR hdepth h.flushed hreports hitems hshallow
  refine ⟨hkeep, ?_⟩
  cases t with
  | extend events =>
    by_cases hne : events = []
    · subst hne
      exact h.skip
    · exact h.extend (hturn hne).2
  | reorg key removed => exact h.reorg hturn.2 hreports hturn.1

end Step

/-! ### Whole evolutions -/

section Run

variable [Store σ BlockPosition] [RecordOps ρ E] {W : σ → Prop} {R : ρ → Prop} {D : E → Prop}
  {depth lo tip : Nat} {seed : Option BlockPosition} {cut mark : Option Nat}
  {c : CanonicalChain E} {before after : List (Turn E)} {store : σ} {record : ρ}

/-- The writers once the live stream has reported the turns `turns`, behind a backfill of the
snapshot of the chain after the turns `before`. -/
def afterTurns (c : CanonicalChain E) (before turns : List (Turn E)) (lo tip : Nat) (store : σ)
    (record : ρ) (depth : Nat) (cut : Option Nat) (seed : Option BlockPosition) :
    Pipeline σ ρ BlockPosition E :=
  persistAndEmit (chainEvents (c.run before).block lo tip) (c.live turns) store record depth cut
    seed

theorem afterTurns_concat (turns : List (Turn E)) (t : Turn E) :
    afterTurns c before (turns ++ [t]) lo tip store record depth cut seed
      = ((c.run turns).items t).foldl Pipeline.liveStep
        (afterTurns c before turns lo tip store record depth cut seed) := by
  rw [afterTurns, live_concat]
  exact List.foldl_append

omit [Store σ BlockPosition] [RecordOps ρ E] in
/-- Behind the backfill of a snapshot the race begins. -/
theorem Seeded.races {s : Pipeline σ ρ BlockPosition E}
    (h : Seeded mark (chainEvents (c.run before).block lo tip) s)
    (hnext : (c.run before).next = tip + 1) : Races lo mark c before s := by
  have hheld : ∀ k, Spanned lo s k → heldEvents s.io.effects k = (c.run before).block k := by
    intro k hk
    have hle : lo ≤ k := hk.elim id fun hne => by
      rw [h.held, eventsAt_chainEvents] at hne
      by_contra hlt
      exact hne (if_neg fun hr => hlt hr.1)
    rw [h.held, eventsAt_chainEvents]
    split
    · rfl
    · exact ((c.run before).unfilled k (by omega)).symm
  refine ⟨fun k hk hs hc => ?_, fun k hk => ?_, fun k hkf hs hne => ?_,
    fun m _ k _ hc => hheld k hc, fun f hf => Or.inl (h.flushed f hf)⟩
  · rw [hheld k hc, run_block_of_stable hk hs]
  · obtain ⟨hne, hhead⟩ := h.seeded k hk
    exact ⟨hheld k (Or.inr (by rwa [h.held])), hhead⟩
  · rw [h.held] at hne
    exact absurd (h.unfilled k hkf hne) (by simp [hs])

/-- Healthy writers along an evolution, whose blocks are above the mark as long as the writers are
healthy, and whose reorgs are shallow. -/
theorem upkeep_afterTurns (hW : Reliable BlockPosition W) (hR : Encodes D R) (hdepth : 0 < depth)
    (hstart : Upkeep W R depth lo seed mark
        (afterTurns c before [] lo tip store record depth cut seed) ∧
      Races lo mark c before (afterTurns c before [] lo tip store record depth cut seed))
    (hlawful : c.Lawful (before ++ after))
    (hitems : ∀ p e, .event p e ∈ c.live (before ++ after) → D e ∧ p.block < u64Max)
    (hblocks : ∀ turns events rest, before ++ after = turns ++ .extend events :: rest →
      events ≠ [] →
      Upkeep W R depth lo seed mark (afterTurns c before turns lo tip store record depth cut seed) →
        ∀ m ∈ mark, m < (c.run turns).next)
    (hreorgs : ∀ turns key removed rest, before ++ after = turns ++ .reorg key removed :: rest →
      (Turn.reorg key removed).Shallow mark (c.run turns)
        (afterTurns c before turns lo tip store record depth cut seed).io.effects) :
    ∀ turns rest, before ++ after = turns ++ rest →
      Upkeep W R depth lo seed mark (afterTurns c before turns lo tip store record depth cut seed) ∧
        ((∃ rest', before = turns ++ rest' ∧ Races lo mark (c.run turns) rest'
            (afterTurns c before turns lo tip store record depth cut seed)) ∨
          CaughtUp lo mark (c.run turns)
            (afterTurns c before turns lo tip store record depth cut seed)) := by
  intro turns
  induction turns using List.reverseRecOn with
  | nil => exact fun _ _ => ⟨hstart.1, Or.inl ⟨before, rfl, hstart.2⟩⟩
  | append_singleton turns t ih =>
    intro rest hsplit
    rw [List.append_assoc, List.singleton_append] at hsplit
    obtain ⟨hup, hphase⟩ := ih (t :: rest) hsplit
    have hreports : (c.run turns).Reports t := by
      rw [hsplit] at hlawful
      exact (lawful_append.mp hlawful).2.1
    have hturn : ∀ p e, .event p e ∈ (c.run turns).items t → D e ∧ p.block < u64Max := by
      intro p e he
      refine hitems p e ?_
      rw [hsplit, live_append]
      exact List.mem_append_right _ (List.mem_append_left _ he)
    have hsh : t.Shallow mark (c.run turns)
        (afterTurns c before turns lo tip store record depth cut seed).io.effects := by
      cases t with
      | extend events => exact fun hne => hblocks turns events rest hsplit hne hup
      | reorg key removed => exact hreorgs turns key removed rest hsplit
    rw [afterTurns_concat, run_concat]
    -- the turn is one of those the snapshot has seen, or the live stream has caught up with it
    rcases hphase with ⟨_ | ⟨t', rest'⟩, hbefore, hraces⟩ | hcaught
    · obtain ⟨hkeep, hf⟩ := hraces.follows.step hW hR hdepth hup hreports hturn hsh
      exact ⟨hkeep, Or.inr hf⟩
    · obtain rfl : t' = t := by
        rw [hbefore, List.append_assoc] at hsplit
        exact (List.cons.inj (List.append_cancel_left hsplit)).1
      obtain ⟨hkeep, hr⟩ := hraces.step hW hR hdepth hup hreports hturn hsh
      exact ⟨hkeep, Or.inl ⟨rest', by rw [hbefore]; simp, hr⟩⟩
    · obtain ⟨hkeep, hf⟩ := hcaught.step hW hR hdepth hup hreports hturn hsh
      exact ⟨hkeep, Or.inr hf⟩

/-- A block at or below the mark halts the window. -/
theorem Upkeep.lt_of_clean {turns rest : List (Turn E)} {events : List E}
    (hup : Upkeep W R depth lo seed mark
      (afterTurns c before turns lo tip store record depth cut seed)) (hne : events ≠ [])
    (hclean : Clean (afterTurns c before (turns ++ .extend events :: rest) lo tip store record depth
      cut seed).io.effects) : ∀ m ∈ mark, m < (c.run turns).next := by
  intro m hm
  by_contra hle
  obtain ⟨f, hf, hmf⟩ := hup.sealed.mark_le m hm
  obtain ⟨e, es, rfl⟩ := List.exists_cons_of_ne_nil hne
  set item : Indexed BlockPosition E := .event ⟨(c.run turns).next⟩ e with hitem
  obtain ⟨r, hr⟩ := halts_of_le hup.steady.window (Or.inr ⟨e, hitem⟩) ⟨f, hf, by omega⟩
  have hfull := (prefix_foldl_liveStep ((asLive (es.map fun e => (⟨(c.run turns).next⟩, e)))
    ++ ((c.run turns).turn (.extend (e :: es))).live rest) _).subset hr
  rw [afterTurns, live_append, persistAndEmit, List.foldl_append] at hclean
  exact hclean _ r hfull

/-- What has been written is the canonical chain, each block once and none left out from `lo` on up
to the last one, and its events from `lo` on have been delivered. -/
structure Canonical (ρ : Type) [RecordOps ρ E] (lo : Nat) (c : CanonicalChain E)
    (effects : List (Effect BlockPosition E)) : Prop where
  once : (writes effects).Pairwise fun g g' => g.1.block < g'.1.block
  rows : ∀ g ∈ writes effects, g.2.map Row.payload? = payloads ρ (c.block g.1.block)
  complete : ∀ g ∈ writes effects, ∀ k, lo ≤ k → k < g.1.block → c.block k ≠ [] →
    ∃ g' ∈ writes effects, g'.1.block = k
  delivered : ∃ D : List (BlockPosition × E), (D.map Prod.snd).Sublist (yields effects) ∧
    ∀ k, lo ≤ k → (payloads ρ (c.block k)).Subperm (payloads ρ (eventsAt D k))

omit [Store σ BlockPosition] in
/-- What healthy writers that follow the canonical chain have done. -/
theorem CaughtUp.canonical {s : Pipeline σ ρ BlockPosition E}
    (hup : Upkeep W R depth lo seed mark s) (h : CaughtUp lo mark c s) (henc : Encoded s.io)
    (hdel : DeliveryInv s) : Canonical ρ lo c s.io.effects := by
  have hok := hup.live.2 hup.steady.window
  refine ⟨Safe.writes_pairwise hup.live.1, fun g hg => ?_, fun g hg k hlo hlt hne => ?_, ?_⟩
  · have hrows := hup.sealed.rows g hg
    have hspanned : Spanned lo s g.1.block := (hup.sealed.written g hg).imp id fun hne hnil => by
      rw [hrows, heldRows] at hne
      exact hne (by simpa [heldEvents] using hnil)
    rw [hrows, henc.payloads (List.prefix_refl _), h.held _ hspanned]
    rfl
  · obtain ⟨f, hf, hle⟩ := hok.written g hg
    have hheld : ArtemisLight.held s.io.effects k ≠ [] := fun hnil => by
      rw [← h.held k (Or.inl hlo), heldEvents, hnil] at hne
      exact hne rfl
    exact ⟨_, hok.complete f hf k (by omega) hheld, rfl⟩
  · obtain ⟨-, D, hD⟩ := hdel
    refine ⟨D.map fun x => (⟨x.key⟩, x.event), ?_, fun k hlo => ?_⟩
    · rw [List.map_map]
      exact hD.delivered.yielded
    · have hrow : ∀ x ∈ D, x.row.payload? = some (.text (RecordOps.payload ρ x.event)) := by
        intro x hx
        obtain ⟨w, hm⟩ := hD.delivered.accepted x hx
        exact RecordOps.encode_payload (henc w _ _ _ hm)
      have hat : payloads ρ (eventsAt (D.map fun x => ((⟨x.key⟩ : BlockPosition), x.event)) k)
          = (rowsFor D k).map Row.payload? := by
        rw [eventsAt, List.filter_map, List.map_map, payloads, List.map_map, rowsFor, List.map_map]
        exact List.map_congr_left fun x hx => (hrow x (List.mem_of_mem_filter hx)).symm
      rw [hat, ← h.held k (Or.inl hlo), payloads, ← henc.payloads (List.prefix_refl _)]
      obtain ⟨rows, hperm, hsub⟩ := hD.heldRows k
      exact ⟨rows.map Row.payload?, hperm.map _, hsub.map _⟩

end Run

/-! ### Shallow evolutions -/

section Main

variable [Store σ BlockPosition] [RecordOps ρ E]

/-- What the writers of a subscription that finds `seed` stored do until the live stream has
reported the turns `turns`, where the backfill holds the chain after the turns `before`. -/
def Persisted.evolved (p : Persisted ρ) (c : CanonicalChain E) (before turns : List (Turn E))
    (tip : Nat) (seed : Option BlockPosition) (store : σ) (record : ρ) :
    List (Effect BlockPosition E) :=
  (afterTurns c before turns (p.backfillFrom seed) tip store record p.confirmationDepth
    (p.finalCut tip) seed).io.effects

/-- A subscription to an evolving chain: its backfill is the chain after the turns `before`, which
ends at the tip, and no reorg reaches down to the stored position, to the final cut or to what has
been written when it is reported. -/
structure ShallowEvolution (D : E → Prop) (p : Persisted ρ) (c : CanonicalChain E)
    (before after : List (Turn E)) (tip : Nat) (seed : Option BlockPosition) (store : σ)
    (record : ρ) : Prop where
  unbounded : p.toBlock = none
  lawful : c.Lawful (before ++ after)
  head : (c.run before).next = tip + 1
  tip_lt : tip < u64Max
  encodable : ∀ k, ∀ e ∈ (c.run before).block k, D e
  live : ∀ q e, .event q e ∈ c.live (before ++ after) → D e ∧ q.block < u64Max
  shallow : ∀ turns key removed rest, before ++ after = turns ++ .reorg key removed :: rest →
    (∀ q ∈ seed, q.block < key) ∧ (∀ k ∈ p.finalCut tip, k < key) ∧
      ∀ g ∈ writes (p.evolved c before turns tip seed store record), g.1.block < key

/-- No event is reported at or below the stored position or the final cut. -/
def Persisted.ReportedAbove (p : Persisted ρ) (tip : Nat) (seed : Option BlockPosition)
    (live : List (Indexed BlockPosition E)) : Prop :=
  ∀ q e, .event q e ∈ live →
    (∀ s ∈ seed, s.block < q.block) ∧ ∀ k ∈ p.finalCut tip, k < q.block

namespace ShallowEvolution

variable {W : σ → Prop} {R : ρ → Prop} {D : E → Prop} {p : Persisted ρ} {c : CanonicalChain E}
  {before after : List (Turn E)} {tip : Nat} {seed : Option BlockPosition} {store : σ} {record : ρ}

theorem bury (h : ShallowEvolution D p c before after tip seed store record) :
    ∀ k, (∀ cut ∈ p.finalCut tip, cut < k) → k ≤ tip →
      tip < saturatingAdd u64Max k p.confirmationDepth := by
  have heff : p.effectiveTip tip = tip := by
    rw [Persisted.effectiveTip, h.unbounded]
    rfl
  have hbury := p.bury (heff.symm ▸ h.tip_lt)
  rwa [heff] at hbury

/-- The backfill begins above the stored position. -/
theorem above_seed (h : ShallowEvolution D p c before after tip seed store record) :
    ∀ x ∈ chainEvents (c.run before).block (p.backfillFrom seed) tip, ∀ q ∈ seed,
      q.block < x.1.block := by
  intro x hx q hq
  obtain ⟨hlo, hhi, -⟩ := mem_chainEvents.mp hx
  have hfrom : min (q.block + 1) u64Max ≤ x.1.block := by
    refine Nat.le_trans ?_ hlo
    rw [Persisted.backfillFrom, Option.mem_def.mp hq]
    exact Nat.le_max_left _ _
  have htip := h.tip_lt
  omega

/-- `Upkeep` carries every prefix of the turns, as long as the blocks are reported above the mark
that the window starts with. -/
theorem upkeep (h : ShallowEvolution D p c before after tip seed store record)
    (hW : Reliable BlockPosition W) (hR : Encodes D R) (hs : W store) (hr : R record)
    (hblocks : ∀ turns events rest, before ++ after = turns ++ .extend events :: rest →
      events ≠ [] →
      Upkeep W R p.confirmationDepth (p.backfillFrom seed) seed (windowSeed seed (p.finalCut tip))
        (afterTurns c before turns (p.backfillFrom seed) tip store record p.confirmationDepth
          (p.finalCut tip) seed) →
        ∀ m ∈ windowSeed seed (p.finalCut tip), m < (c.run turns).next) :
    ∀ turns rest, before ++ after = turns ++ rest →
      Upkeep W R p.confirmationDepth (p.backfillFrom seed) seed (windowSeed seed (p.finalCut tip))
          (afterTurns c before turns (p.backfillFrom seed) tip store record p.confirmationDepth
            (p.finalCut tip) seed) ∧
        ((∃ rest', before = turns ++ rest' ∧
            Races (p.backfillFrom seed) (windowSeed seed (p.finalCut tip)) (c.run turns) rest'
              (afterTurns c before turns (p.backfillFrom seed) tip store record p.confirmationDepth
                (p.finalCut tip) seed)) ∨
          CaughtUp (p.backfillFrom seed) (windowSeed seed (p.finalCut tip)) (c.run turns)
            (afterTurns c before turns (p.backfillFrom seed) tip store record p.confirmationDepth
              (p.finalCut tip) seed)) := by
  have htips : ∀ x ∈ chainEvents (c.run before).block (p.backfillFrom seed) tip,
      x.1.block ≤ tip := fun x hx => (mem_chainEvents.mp hx).2.1
  have hlo : ∀ x ∈ chainEvents (c.run before).block (p.backfillFrom seed) tip,
      p.backfillFrom seed ≤ x.1.block := fun x hx => (mem_chainEvents.mp hx).1
  obtain ⟨hup, hseeded⟩ := seeded_backfill hW hR hs hr h.bury htips
    (fun x hx => h.encodable _ _ (mem_chainEvents.mp hx).2.2) h.above_seed chainEvents_pairwise hlo
  refine upkeep_afterTurns hW hR p.depth_pos ⟨hup, hseeded.races h.head⟩ h.lawful h.live hblocks ?_
  intro turns key removed rest hsplit
  obtain ⟨hseed, hcut, hwritten⟩ := h.shallow turns key removed rest hsplit
  exact ⟨fun m hm => lt_of_windowSeed hm hseed hcut, hwritten⟩

/-- Nothing halts exactly if every event is reported above the stored position and the final
cut. -/
theorem clean_iff (h : ShallowEvolution D p c before after tip seed store record)
    (hW : Reliable BlockPosition W) (hR : Encodes D R) (hs : W store) (hr : R record) :
    Clean (p.evolved c before (before ++ after) tip seed store record) ↔
      p.ReportedAbove tip seed (c.live (before ++ after)) := by
  have hkeep := h.upkeep hW hR hs hr
  constructor
  · intro hclean q e he
    obtain ⟨turns, events, rest, hsplit, rfl, hev⟩ := mem_live he
    have hturns := hkeep (fun turns events rest hsplit hne hup =>
      hup.lt_of_clean hne (hsplit ▸ hclean)) turns _ hsplit
    have hmark := hturns.1.lt_of_clean (List.ne_nil_of_mem hev) (hsplit ▸ hclean)
    refine ⟨fun s hs => ?_, fun k hk => ?_⟩
    · obtain ⟨f, hf, hle⟩ : ∃ f ∈ windowSeed seed (p.finalCut tip), s.block ≤ f :=
        le_windowSeed_of_seed hs
      exact Nat.lt_of_le_of_lt hle (hmark f hf)
    · obtain ⟨f, hf, hle⟩ := le_windowSeed_of_cut seed hk
      exact Nat.lt_of_le_of_lt hle (hmark f hf)
  -- every block reported lies above the mark the window starts with
  · intro habove
    have hblocks : ∀ turns events rest, before ++ after = turns ++ .extend events :: rest →
        events ≠ [] → ∀ m ∈ windowSeed seed (p.finalCut tip), m < (c.run turns).next := by
      intro turns events rest hsplit hne m hm
      obtain ⟨e, he⟩ := List.exists_mem_of_ne_nil _ hne
      obtain ⟨hseed, hcut⟩ := habove _ e (hsplit ▸ mem_live_of_extend he)
      exact lt_of_windowSeed hm hseed hcut
    exact (hkeep (fun turns events rest hsplit hne _ => hblocks turns events rest hsplit hne)
      _ [] (List.append_nil _).symm).1.steady.clean

/-- If nothing halts, the final chain is written. -/
theorem canonical (h : ShallowEvolution D p c before after tip seed store record)
    (hW : Reliable BlockPosition W) (hR : Encodes D R) (hs : W store) (hr : R record)
    (hclean : Clean (p.evolved c before (before ++ after) tip seed store record)) :
    Canonical ρ (p.backfillFrom seed) (c.run (before ++ after))
      (p.evolved c before (before ++ after) tip seed store record) := by
  obtain ⟨hup, hphase⟩ := h.upkeep hW hR hs hr (fun turns events rest hsplit hne hup =>
    hup.lt_of_clean hne (hsplit ▸ hclean)) _ [] (List.append_nil _).symm
  have hcaught : CaughtUp (p.backfillFrom seed) (windowSeed seed (p.finalCut tip))
      (c.run (before ++ after)) (afterTurns c before (before ++ after) (p.backfillFrom seed) tip
        store record p.confirmationDepth (p.finalCut tip) seed) := by
    -- if the race is still on, no turn is left of it
    rcases hphase with ⟨rest, hbefore, hraces⟩ | hcaught
    · rw [List.append_assoc, List.self_eq_append_right, List.append_eq_nil_iff] at hbefore
      obtain ⟨-, rfl⟩ := hbefore
      exact hraces.follows
    · exact hcaught
  exact hcaught.canonical hup (encoded_persistAndEmit _ _ _ _ _ _ _)
    (delivery_persistAndEmit _ _ _ _ h.bury p.depth_pos
      (fun x hx => (mem_chainEvents.mp hx).2.1) h.above_seed fun q e he => (h.live q e he).2)

end ShallowEvolution

/-- A shallow evolution is harmless, that is, the window never halts, only canonical blocks are
written, each of them once, and the canonical events are delivered, exactly if the live stream
reports no event at or below the stored position or the final cut. -/
theorem shallow_evolution_harmless_iff {W : σ → Prop} {R : ρ → Prop} {D : E → Prop}
    (hW : Reliable BlockPosition W) (hR : Encodes D R) {p : Persisted ρ} {c : CanonicalChain E}
    {before after : List (Turn E)} {tip : Nat} {seed : Option BlockPosition} {store : σ}
    (hs : W store) {record : ρ} (hr : R record)
    (h : ShallowEvolution D p c before after tip seed store record) :
    Clean (p.evolved c before (before ++ after) tip seed store record) ∧
        Canonical ρ (p.backfillFrom seed) (c.run (before ++ after))
          (p.evolved c before (before ++ after) tip seed store record) ↔
      p.ReportedAbove tip seed (c.live (before ++ after)) := by
  constructor
  · rintro ⟨hclean, -⟩
    exact (h.clean_iff hW hR hs hr).mp hclean
  · intro habove
    have hclean := (h.clean_iff hW hR hs hr).mpr habove
    exact ⟨hclean, h.canonical hW hR hs hr hclean⟩

/-- An evolution none of whose reorgs reaches down to the stored position, to the final cut or to
what has been written when it is reported: nothing halts exactly if no event is reported at or below
the stored position or the final cut; and if nothing halts, what is written is the final chain,
whenever the snapshot was taken. -/
theorem shallow_reorgs_exact {W : σ → Prop} {R : ρ → Prop} {D : E → Prop}
    (hW : Reliable BlockPosition W) (hR : Encodes D R) {p : Persisted ρ} (hbound : p.toBlock = none)
    {c : CanonicalChain E} {before after : List (Turn E)} (hlawful : c.Lawful (before ++ after))
    {tip : Nat} (hnext : (c.run before).next = tip + 1) (htip : tip < u64Max)
    (hD : ∀ k, ∀ e ∈ (c.run before).block k, D e)
    (hlive : ∀ q e, .event q e ∈ c.live (before ++ after) → D e ∧ q.block < u64Max)
    (seed : Option BlockPosition) {store : σ} (hs : W store) {record : ρ} (hr : R record)
    (hshallow : ∀ turns key removed rest, before ++ after = turns ++ .reorg key removed :: rest →
      (∀ q ∈ seed, q.block < key) ∧ (∀ k ∈ p.finalCut tip, k < key) ∧
        ∀ g ∈ writes (p.evolved c before turns tip seed store record), g.1.block < key) :
    (Clean (p.evolved c before (before ++ after) tip seed store record) ↔
      ∀ q e, .event q e ∈ c.live (before ++ after) →
        (∀ s ∈ seed, s.block < q.block) ∧ ∀ k ∈ p.finalCut tip, k < q.block) ∧
    (Clean (p.evolved c before (before ++ after) tip seed store record) →
      Canonical ρ (p.backfillFrom seed) (c.run (before ++ after))
        (p.evolved c before (before ++ after) tip seed store record)) := by
  have h : ShallowEvolution D p c before after tip seed store record :=
    ⟨hbound, hlawful, hnext, htip, hD, hlive, hshallow⟩
  exact ⟨h.clean_iff hW hR hs hr, h.canonical hW hR hs hr⟩

end Main

/-! ### A race -/

/-- A chain given block by block. -/
def CanonicalChain.of (blocks : List (List E)) : CanonicalChain E where
  block := chainOf blocks
  next := blocks.length
  unfilled k hk := by
    by_contra hne
    exact absurd (lt_length_of_chainOf hne) (Nat.not_lt_of_le hk)

def racingChain : CanonicalChain ValueSet :=
  .of [[⟨0⟩], [⟨1⟩], [⟨2⟩], [⟨3⟩], [⟨4⟩], [⟨5⟩], [⟨6⟩], [⟨7⟩], [⟨8⟩]]

/-- Block 9 is replaced before the snapshot is taken, which the live stream has still to report. -/
def turnsBefore : List (Turn ValueSet) :=
  [.extend [⟨9⟩, ⟨9⟩], .reorg 9 [9, 9], .extend [⟨90⟩], .extend [⟨100⟩]]

/-- Block 10 of the snapshot is replaced by one with other events, then both are. -/
def turnsAfter : List (Turn ValueSet) :=
  [.reorg 10 [10], .extend [⟨101⟩, ⟨102⟩], .reorg 9 [10, 9, 10], .extend [], .extend [⟨103⟩],
    .extend [⟨11⟩], .extend [⟨12⟩]]

/-- Start block 8, depth 2, tip 10. -/
def racingRun (turns : List (Turn ValueSet)) : List (Effect BlockPosition ValueSet) :=
  (scriptedWrapper 8 2 Nat.two_pos none).evolved racingChain turnsBefore turns 10 none
    (MemoryStore.new [] : MemoryStore BlockPosition) (Record.inferred ValueSet.table)

/-- The height from which a reorg removes the blocks. -/
def Turn.key? : Turn E → Option Nat
  | .extend _ => none
  | .reorg key _ => some key

/-- The height of an event of the live stream. -/
def Indexed.height? : Indexed BlockPosition E → Option Nat
  | .event position _ => some position.block
  | .retract _ => none

/-- What holds of every reorg, read off the prefixes of the turns. -/
theorem shallow_of_take {run : List (Turn E) → List (Effect BlockPosition E)} {cut : Nat}
    {all : List (Turn E)} (h : ∀ i < all.length, ∀ key ∈ all[i]?.bind Turn.key?,
      cut < key ∧ ∀ g ∈ writes (run (all.take i)), g.1.block < key)
    {turns rest : List (Turn E)} {key : Nat} {removed : List Nat}
    (hsplit : all = turns ++ .reorg key removed :: rest) :
    cut < key ∧ ∀ g ∈ writes (run turns), g.1.block < key := by
  have hkey := h turns.length (by rw [hsplit]; simp) key (by rw [hsplit]; simp [Turn.key?])
  rwa [hsplit, List.take_left] at hkey

/-- Every reorg of the race is above the final cut 8 and above what has been written. -/
theorem racing_shallow {turns rest : List (Turn ValueSet)} {key : Nat} {removed : List Nat}
    (hsplit : turnsBefore ++ turnsAfter = turns ++ .reorg key removed :: rest) :
    8 < key ∧ ∀ g ∈ writes (racingRun turns), g.1.block < key :=
  shallow_of_take (by decide +kernel) hsplit

theorem racing_heights {position : BlockPosition} {event : ValueSet}
    (h : .event position event ∈ racingChain.live (turnsBefore ++ turnsAfter)) :
    8 < position.block ∧ position.block < u64Max := by
  have hheights : ∀ x ∈ racingChain.live (turnsBefore ++ turnsAfter), ∀ k ∈ x.height?,
      8 < k ∧ k < u64Max := by decide +kernel
  exact hheights _ h _ rfl

theorem racing_cut {k : Nat} (hk : k ∈ (scriptedWrapper 8 2 Nat.two_pos none).finalCut 10) :
    k = 8 :=
  (Option.some.inj hk).symm

theorem racing_evolution : ShallowEvolution (fun _ => True) (scriptedWrapper 8 2 Nat.two_pos none)
    racingChain turnsBefore turnsAfter 10 none (MemoryStore.new [] : MemoryStore BlockPosition)
    (Record.inferred ValueSet.table) where
  unbounded := rfl
  lawful := by decide +kernel
  head := rfl
  tip_lt := by decide
  encodable _ _ _ := trivial
  live q e he := ⟨trivial, (racing_heights he).2⟩
  shallow turns key removed rest hsplit :=
    ⟨by simp, fun k hk => racing_cut hk ▸ (racing_shallow hsplit).1, (racing_shallow hsplit).2⟩

theorem racing_reportedAbove : (scriptedWrapper 8 2 Nat.two_pos none).ReportedAbove 10 none
    (racingChain.live (turnsBefore ++ turnsAfter)) := fun q e he =>
  ⟨by simp, fun k hk => racing_cut hk ▸ (racing_heights he).1⟩

/-- The race stays above the final cut, so it is harmless. -/
theorem racing_harmless :
    Clean (racingRun (turnsBefore ++ turnsAfter)) ∧
      Canonical Record 8 (racingChain.run (turnsBefore ++ turnsAfter))
        (racingRun (turnsBefore ++ turnsAfter)) :=
  (shallow_evolution_harmless_iff MemoryStore.reliable (ValueSet.encodes _) rfl (Or.inl rfl)
    racing_evolution).mpr racing_reportedAbove

theorem shallow_reorgs_exact_racing :
    (writes (racingRun (turnsBefore ++ turnsAfter))).map (fun g => g.1.block) = [8, 10] ∧
      Canonical Record 8 (racingChain.run (turnsBefore ++ turnsAfter))
        (racingRun (turnsBefore ++ turnsAfter)) := by
  have h := racing_evolution
  have hstore : (MemoryStore.new [] : MemoryStore BlockPosition).fails = [] := rfl
  have hrecord : ValueSet.Records (.inferred ValueSet.table) := Or.inl rfl
  obtain ⟨hclean, hcanonical⟩ := shallow_reorgs_exact (D := fun _ => True) MemoryStore.reliable
    (ValueSet.encodes _) rfl h.lawful h.head h.tip_lt h.encodable h.live none hstore hrecord
    h.shallow
  exact ⟨by decide +kernel, hcanonical (hclean.mpr racing_reportedAbove)⟩

/-! ### A backfill that the live stream overlaps -/

/-- Blocks 9 and 10 arrive between the opening of the live stream and the snapshot, and block 10 is
replaced by another. -/
def overlappingTurns : List (Turn ValueSet) :=
  [.extend [⟨9⟩], .extend [⟨10⟩], .reorg 10 [10], .extend [⟨100⟩]]

/-- Start block 0, depth 1, tip 10. -/
def overlappingRun (turns : List (Turn ValueSet)) : List (Effect BlockPosition ValueSet) :=
  (scriptedWrapper 0 1 Nat.one_pos none).evolved racingChain overlappingTurns turns 10 none
    (MemoryStore.new [] : MemoryStore BlockPosition) (Record.inferred ValueSet.table)

/-- The only reorg is above the final cut 9 and everything written, but the window halts: it takes
block 9, which the backfill has settled and the live stream reports again, for a deep reorg. -/
theorem overlapping_turns_halt :
    ShallowEvolution (fun _ => True) (scriptedWrapper 0 1 Nat.one_pos none) racingChain
        overlappingTurns [] 10 none (MemoryStore.new [] : MemoryStore BlockPosition)
        (Record.inferred ValueSet.table) ∧
      .halted .window (.reobserved ⟨9⟩ 1) ∈ overlappingRun overlappingTurns ∧
      ¬ Clean (overlappingRun overlappingTurns) := by
  have hhalted : .halted .window (.reobserved ⟨9⟩ 1) ∈ overlappingRun overlappingTurns := by
    decide +kernel
  have hheights : ∀ x ∈ racingChain.live overlappingTurns, ∀ k ∈ x.height?, k < u64Max := by
    decide +kernel
  refine ⟨⟨rfl, by decide +kernel, rfl, by decide, fun _ _ _ => trivial, fun q e he =>
    ⟨trivial, hheights _ he _ rfl⟩, fun turns key removed rest hsplit => ?_⟩, hhalted, fun hclean =>
    hclean _ _ hhalted⟩
  have hshallow : 9 < key ∧ ∀ g ∈ writes (overlappingRun turns), g.1.block < key :=
    shallow_of_take (by decide +kernel) hsplit
  refine ⟨by simp, fun k hk => ?_, hshallow.2⟩
  obtain rfl : 9 = k := Option.some.inj hk
  exact hshallow.1

end ArtemisLight
