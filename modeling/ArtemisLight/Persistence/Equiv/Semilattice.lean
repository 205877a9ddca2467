import ArtemisLight.Lib.Folded
import ArtemisLight.Persistence.Writer.Equiv.Tally

/-!
## Positions are join-semilattices

The order of a position is coverage, and folding one position into another is their join.  So a
watermark does not depend on how the positions behind it were folded.
-/

namespace ArtemisLight

/-- A position whose coverage is an order, with `advance` as its join. -/
class SemilatticePosition (P : Type) [Position P] [SemilatticeSup P] : Prop
    extends ResumablePosition P where
  le_iff_contains : ∀ a b : P, a ≤ b ↔ Position.contains b a = true
  sup_eq_advance : ∀ a b : P, a ⊔ b = Position.advance (some a) b
  fromSortKey_le : ∀ (k : Nat) (p : P), k ≤ Position.sortKey p → Position.fromSortKey k ≤ p

/-! ### Blocks -/

instance : SemilatticeSup BlockPosition where
  le a b := Position.contains b a = true
  sup a b := Position.advance (some a) b
  le_refl a := decide_eq_true (Nat.le_refl a.block)
  le_trans a b c hab hbc :=
    decide_eq_true (Nat.le_trans (of_decide_eq_true hab) (of_decide_eq_true hbc))
  le_antisymm a b hab hba := by
    have hblock := Nat.le_antisymm (of_decide_eq_true hab) (of_decide_eq_true hba)
    cases a
    cases b
    exact congrArg BlockPosition.mk hblock
  le_sup_left a b := decide_eq_true (Nat.le_max_left a.block b.block)
  le_sup_right a b := decide_eq_true (Nat.le_max_right a.block b.block)
  sup_le a b c hac hbc :=
    decide_eq_true (Nat.max_le.mpr ⟨of_decide_eq_true hac, of_decide_eq_true hbc⟩)

instance : SemilatticePosition BlockPosition where
  le_iff_contains _ _ := Iff.rfl
  sup_eq_advance _ _ := rfl
  fromSortKey_le _ _ h := decide_eq_true h

/-! ### Frontiers -/

namespace TimeFrontier

theorem contains_trans {a b c : TimeFrontier} (hab : Position.contains b a = true)
    (hbc : Position.contains c b = true) : Position.contains c a = true := by
  rw [contains_iff] at hab hbc ⊢
  rcases hab with hab | ⟨hab, hsub⟩
  · rcases hbc with hbc | ⟨hbc, -⟩
    · exact .inl (Nat.lt_trans hab hbc)
    · exact .inl (hbc ▸ hab)
  · rcases hbc with hbc | ⟨hbc, hsub'⟩
    · exact .inl (hab ▸ hbc)
    · exact .inr ⟨hab.trans hbc, hsub.trans hsub'⟩

theorem contains_antisymm {a b : TimeFrontier} (hab : Position.contains b a = true)
    (hba : Position.contains a b = true) : a = b := by
  rw [contains_iff] at hab hba
  -- neither is earlier, so each identity of one is an identity of the other
  rcases hab with hab | ⟨htime, hsub⟩
  · omega
  · rcases hba with hba | ⟨-, hsub'⟩
    · omega
    · cases a
      cases b
      exact congrArg₂ TimeFrontier.mk htime (hsub.antisymm hsub')

/-- What covers two frontiers covers the one folded into the other. -/
theorem contains_advance {a b c : TimeFrontier} (hac : Position.contains c a = true)
    (hbc : Position.contains c b = true) :
    Position.contains c (Position.advance (some a) b) = true := by
  rcases advance_cases a b with ⟨-, h⟩ | ⟨-, h⟩ | ⟨htime, h⟩
  · rw [h]
    exact hbc
  · rw [h]
    exact hac
  · rw [h, contains_iff]
    rw [contains_iff] at hac hbc
    rcases hac with hac | ⟨hac, hsub⟩
    · exact .inl hac
    · rcases hbc with hbc | ⟨-, hsub'⟩
      · exact .inl (htime ▸ hbc)
      · exact .inr ⟨hac, Finset.union_subset hsub hsub'⟩

end TimeFrontier

instance : SemilatticeSup TimeFrontier where
  le a b := Position.contains b a = true
  sup a b := Position.advance (some a) b
  le_refl := TimeFrontier.contains_self
  le_trans _ _ _ := TimeFrontier.contains_trans
  le_antisymm _ _ := TimeFrontier.contains_antisymm
  le_sup_left a b := TimeFrontier.contains_advance_left (TimeFrontier.contains_self a) b
  le_sup_right a b := TimeFrontier.contains_advance_right (TimeFrontier.contains_self b) (some a)
  sup_le _ _ _ := TimeFrontier.contains_advance

instance : SemilatticePosition TimeFrontier where
  le_iff_contains _ _ := Iff.rfl
  sup_eq_advance _ _ := rfl
  fromSortKey_le k p h := by
    show Position.contains p ⟨k, ∅⟩ = true
    rw [TimeFrontier.contains_iff]
    rcases Nat.lt_or_eq_of_le h with h | h
    · exact .inl h
    · exact .inr ⟨h, Finset.empty_subset _⟩

/-! ### Watermarks -/

/-- A watermark that the positions of the list were folded into: event by event, or by absorbing
the watermark of a group, or of another writer. -/
inductive WatermarkOf {P : Type} [Position P] : Option P → List P → Prop
  | start : WatermarkOf none []
  | event {w : Option P} {ps : List P} (h : WatermarkOf w ps) (p : P) :
      WatermarkOf (some (Position.advance w p)) (ps ++ [p])
  | absorb {w : Option P} {v : P} {ps qs : List P} (h : WatermarkOf w ps)
      (hv : WatermarkOf (some v) qs) : WatermarkOf (some (Position.advance w v)) (ps ++ qs)

section Laws

variable {P : Type} [Position P]

/-- The watermark of a list that is folded event by event. -/
theorem watermarkOf_foldl (ps : List P) :
    WatermarkOf (ps.foldl (fun w p => some (Position.advance w p)) none) ps := by
  have hfrom : ∀ (ps qs : List P) (w : Option P), WatermarkOf w qs →
      WatermarkOf (ps.foldl (fun w p => some (Position.advance w p)) w) (qs ++ ps) := by
    intro ps
    induction ps with
    | nil =>
      intro qs w h
      rw [List.append_nil]
      exact h
    | cons p ps ih =>
      intro qs w h
      rw [List.append_cons]
      exact ih _ _ (h.event p)
  exact hfrom ps [] none .start

variable [SemilatticeSup P] [SemilatticePosition P]

/-- A watermark is a fold of joins, or there is nothing behind it. -/
theorem WatermarkOf.folded {w : Option P} {ps : List P} (h : WatermarkOf w ps) :
    (w = none ∧ ps = []) ∨ ∃ v, w = some v ∧ Folded v ps := by
  induction h with
  | start => exact .inl ⟨rfl, rfl⟩
  | @event w ps _ p ih =>
    right
    rcases ih with ⟨rfl, rfl⟩ | ⟨v, rfl, hv⟩
    · rw [LawfulPosition.advance_none]
      exact ⟨p, rfl, .one p⟩
    · rw [← SemilatticePosition.sup_eq_advance]
      exact ⟨_, rfl, hv.join (.one p)⟩
  | @absorb w u ps qs _ _ ih ihu =>
    right
    obtain ⟨u', hu', hu⟩ := ihu.resolve_left fun h => (nomatch h.1)
    obtain rfl := Option.some.inj hu'
    rcases ih with ⟨rfl, rfl⟩ | ⟨v, rfl, hv⟩
    · rw [LawfulPosition.advance_none]
      exact ⟨u, rfl, hu⟩
    · rw [← SemilatticePosition.sup_eq_advance]
      exact ⟨_, rfl, hv.join hu⟩

/-- Watermarks of the same positions agree. -/
theorem WatermarkOf.unique {w v : Option P} {ps qs : List P} (hw : WatermarkOf w ps)
    (hv : WatermarkOf v qs) (h : ∀ p, p ∈ ps ↔ p ∈ qs) : w = v := by
  have hnil : ps = [] ↔ qs = [] := by
    rw [List.eq_nil_iff_forall_not_mem, List.eq_nil_iff_forall_not_mem]
    exact forall_congr' fun p => not_congr (h p)
  rcases hw.folded with ⟨rfl, hps⟩ | ⟨a, rfl, ha⟩
  · rcases hv.folded with ⟨rfl, -⟩ | ⟨b, rfl, hb⟩
    · rfl
    · exact absurd (hnil.mp hps) hb.ne_nil
  · rcases hv.folded with ⟨rfl, hqs⟩ | ⟨b, rfl, hb⟩
    · exact absurd (hnil.mpr hqs) ha.ne_nil
    · rw [ha.unique hb h]

end Laws

/-- The laws of folding positions. -/
structure JoinLaws (P : Type) [Position P] : Prop where
  assoc : ∀ a b c : P, Position.advance (some (Position.advance (some a) b)) c
    = Position.advance (some a) (Position.advance (some b) c)
  comm : ∀ a b : P, Position.advance (some a) b = Position.advance (some b) a
  idem : ∀ a : P, Position.advance (some a) a = a
  contains_iff : ∀ a b : P, Position.contains a b = true ↔ Position.advance (some a) b = a
  contains_refl : ∀ a : P, Position.contains a a = true
  contains_trans : ∀ a b c : P, Position.contains a b = true → Position.contains b c = true →
    Position.contains a c = true
  sortKey_advance : ∀ a b : P, Position.sortKey (Position.advance (some a) b)
    = max (Position.sortKey a) (Position.sortKey b)
  /-- `fromSortKey k` is the least of the positions of sort key `k`. -/
  fromSortKey_least : ∀ k, Position.sortKey (Position.fromSortKey k : P) = k ∧
    ∀ a : P, Position.sortKey a = k → Position.contains a (Position.fromSortKey k) = true
  /-- Whatever the order, the repetition and the grouping. -/
  folds : ∀ (w v : Option P) (ps qs : List P), WatermarkOf w ps → WatermarkOf v qs →
    (∀ p, p ∈ ps ↔ p ∈ qs) → w = v
  folds_foldl : ∀ ps : List P,
    WatermarkOf (ps.foldl (fun w p => some (Position.advance w p)) none) ps

theorem joinLaws (P : Type) [Position P] [SemilatticeSup P] [SemilatticePosition P] :
    JoinLaws P := by
  have hsup := SemilatticePosition.sup_eq_advance (P := P)
  have hle := SemilatticePosition.le_iff_contains (P := P)
  constructor
  · intro a b c
    rw [← hsup, ← hsup, ← hsup, ← hsup]
    exact sup_assoc a b c
  · intro a b
    rw [← hsup, ← hsup]
    exact sup_comm a b
  · intro a
    rw [← hsup]
    exact sup_idem a
  · intro a b
    rw [← hle, ← hsup]
    exact sup_eq_left.symm
  · exact fun a => (hle a a).mp le_rfl
  · intro a b c hab hbc
    exact (hle c a).mp (((hle c b).mpr hbc).trans ((hle b a).mpr hab))
  · exact LawfulPosition.sortKey_advance
  · intro k
    refine ⟨ResumablePosition.sortKey_fromSortKey k, fun a ha => (hle _ _).mp ?_⟩
    exact SemilatticePosition.fromSortKey_le k a (Nat.le_of_eq ha.symm)
  · exact fun w v ps qs hw hv h => hw.unique hv h
  · exact watermarkOf_foldl

/-- The built-in positions are join-semilattices with coverage as their order, so a watermark is
the same however the positions behind it are folded. -/
theorem positions_join : JoinLaws BlockPosition ∧ JoinLaws TimeFrontier :=
  ⟨joinLaws BlockPosition, joinLaws TimeFrontier⟩

end ArtemisLight
