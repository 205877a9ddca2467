import Mathlib.Data.List.Pairwise
import ArtemisLight.Persistence.Position
import ArtemisLight.Persistence.Schema

/-!
# Position groups

What both writers make of a stream that arrives in the order of its sort keys: one group of rows for
each sort key, under the positions of its events folded together.  All groups but the last are
closed.
-/

namespace ArtemisLight

/-- The groups of a stream so far. -/
structure Groups (P : Type) where
  closed : List (P × List Row)
  last : Option (P × List Row)

namespace Groups

variable {P : Type}

def empty : Groups P := ⟨[], none⟩

def all (g : Groups P) : List (P × List Row) := g.closed ++ g.last.toList

@[simp] theorem mem_all {g : Groups P} {x : P × List Row} :
    x ∈ g.all ↔ x ∈ g.closed ∨ g.last = some x := by
  rw [all, List.mem_append, Option.mem_toList]

variable [Position P]

/-- One more row, in the last group or in a new one. -/
def add (g : Groups P) (position : P) (row : Row) : Groups P :=
  match g.last with
  | none => ⟨g.closed, some (position, [row])⟩
  | some (cur, rows) =>
    if Position.sortKey cur < Position.sortKey position then
      ⟨g.closed ++ [(cur, rows)], some (position, [row])⟩
    else ⟨g.closed, some (Position.advance (some cur) position, rows ++ [row])⟩

/-- The watermark once the groups have been written. -/
def watermark (seed : Option P) (groups : List (P × List Row)) : Option P :=
  groups.foldl (fun w x => some (Position.advance w x.1)) seed

/-- Whether a position is covered by the closed groups, or by the last one at its own sort key. -/
def covered (seed : Option P) (g : Groups P) (position : P) : Bool :=
  (watermark seed g.closed).any (Position.contains · position) ||
    g.last.any fun x =>
      decide (Position.sortKey x.1 = Position.sortKey position) && Position.contains x.1 position

/-- Whether an event is dropped as a re-observation. -/
def Drops (seed : Option P) (g : Groups P) (position : P) : Prop :=
  Position.reobservation P = .dedupe ∧ g.covered seed position = true

instance (seed : Option P) (g : Groups P) (position : P) : Decidable (g.Drops seed position) :=
  inferInstanceAs (Decidable (_ ∧ _))

/-- The groups are in the order of their sort keys, which do not go below the seed's. -/
structure Ordered (seed : Option P) (g : Groups P) : Prop where
  closed : g.closed.Pairwise fun x y => Position.sortKey x.1 < Position.sortKey y.1
  closed_lt : ∀ x ∈ g.closed, ∀ y ∈ g.last, Position.sortKey x.1 < Position.sortKey y.1
  fresh : g.last = none → g.closed = []
  above : ∀ s ∈ seed, ∀ x ∈ g.all, Position.sortKey s ≤ Position.sortKey x.1

variable {seed : Option P} {g : Groups P} {position : P} {row : Row}

theorem Ordered.empty (seed : Option P) : Ordered seed (empty : Groups P) where
  closed := List.Pairwise.nil
  closed_lt _ hx := nomatch hx
  fresh _ := rfl
  above _ _ _ hx := nomatch hx

theorem Ordered.increasing (h : Ordered seed g) :
    g.all.Pairwise fun x y => Position.sortKey x.1 < Position.sortKey y.1 := by
  rw [all, List.pairwise_append]
  refine ⟨h.closed, ?_, fun x hx y hy => h.closed_lt x hx y (Option.mem_toList.mp hy)⟩
  cases g.last <;> simp

/-- Everything is at or below the last group. -/
theorem Ordered.le_last (h : Ordered seed g) {last : P × List Row} (hlast : g.last = some last) :
    ∀ x ∈ g.all, Position.sortKey x.1 ≤ Position.sortKey last.1 := by
  intro x hx
  rcases mem_all.mp hx with hx | hx
  · exact Nat.le_of_lt (h.closed_lt x hx last hlast)
  · rw [hlast, Option.some.injEq] at hx
    rw [hx]

/-- A sort key has one group. -/
theorem Ordered.eq_of_key (h : Ordered seed g) {x y : P × List Row} (hx : x ∈ g.all)
    (hy : y ∈ g.all) (hkey : Position.sortKey x.1 = Position.sortKey y.1) : x = y := by
  by_contra hne
  have hsymm : Std.Symm fun x y : P × List Row => Position.sortKey x.1 ≠ Position.sortKey y.1 :=
    ⟨fun _ _ hxy => hxy.symm⟩
  exact (h.increasing.imp fun hlt => Nat.ne_of_lt hlt).forall hx hy hne hkey

theorem watermark_append (groups groups' : List (P × List Row)) :
    watermark seed (groups ++ groups') = watermark (watermark seed groups) groups' :=
  List.foldl_append

section Lawful

variable [LawfulPosition P]

/-- The last group after one more row has the row's sort key. -/
theorem exists_last_add (row : Row)
    (hle : ∀ x ∈ g.last, Position.sortKey x.1 ≤ Position.sortKey position) :
    ∃ x, (g.add position row).last = some x ∧ Position.sortKey x.1 = Position.sortKey position := by
  unfold add
  rcases hlast : g.last with _ | ⟨cur, rows⟩
  · exact ⟨_, rfl, rfl⟩
  · have hcur := hle (cur, rows) hlast
    simp only
    split
    · exact ⟨_, rfl, rfl⟩
    · refine ⟨_, rfl, ?_⟩
      rw [LawfulPosition.sortKey_advance]
      exact Nat.max_eq_right hcur

/-- One more row changes only the group at its sort key. -/
theorem Ordered.mem_all_add (h : Ordered seed g)
    (hle : ∀ x ∈ g.last, Position.sortKey x.1 ≤ Position.sortKey position) {x : P × List Row}
    (hne : Position.sortKey x.1 ≠ Position.sortKey position) :
    x ∈ (g.add position row).all ↔ x ∈ g.all := by
  obtain ⟨new, hnew, hkey⟩ := exists_last_add row hle
  have hx : ¬ some new = some x := by
    rintro ⟨⟩
    exact hne hkey
  rw [mem_all, mem_all, hnew]
  simp only [hx, or_false]
  unfold Groups.add
  rcases hlast : g.last with _ | ⟨cur, rows⟩
  · simp [h.fresh hlast]
  · have hcur : Position.sortKey cur ≤ Position.sortKey position := hle _ hlast
    simp only
    split
    · rw [List.mem_append, List.mem_singleton, Option.some.injEq, eq_comm (a := x)]
    · have hcur' : ¬ some (cur, rows) = some x := by
        rintro ⟨⟩
        have : Position.sortKey cur ≠ Position.sortKey position := hne
        omega
      simp only [hcur', or_false]

/-- One more row keeps the groups in order. -/
theorem Ordered.add (h : Ordered seed g) (row : Row)
    (hle : ∀ x ∈ g.last, Position.sortKey x.1 ≤ Position.sortKey position)
    (hs : ∀ s ∈ seed, Position.sortKey s ≤ Position.sortKey position) :
    Ordered seed (g.add position row) := by
  obtain ⟨new, hnew, hkey⟩ := exists_last_add row hle
  have hclosed : (g.add position row).closed.Pairwise
        (fun x y => Position.sortKey x.1 < Position.sortKey y.1) ∧
      (∀ x ∈ (g.add position row).closed, Position.sortKey x.1 < Position.sortKey position) ∧
      ∀ x ∈ (g.add position row).closed, x ∈ g.all := by
    unfold Groups.add
    -- only an event beyond the open group closes it
    rcases hlast : g.last with _ | ⟨cur, rows⟩
    · simp only [h.fresh hlast]
      refine ⟨List.Pairwise.nil, fun x hx => ?_, fun x hx => ?_⟩
      · exact absurd hx List.not_mem_nil
      · exact absurd hx List.not_mem_nil
    · have hcur := hle (cur, rows) hlast
      simp only
      split
      · rename_i hlt
        refine ⟨?_, ?_, ?_⟩
        · rw [List.pairwise_append]
          refine ⟨h.closed, List.pairwise_singleton _ _, fun x hx y hy => ?_⟩
          rw [List.mem_singleton] at hy
          rw [hy]
          exact h.closed_lt x hx _ hlast
        · intro x hx
          rcases List.mem_append.mp hx with hx | hx
          · exact Nat.lt_trans (h.closed_lt x hx _ hlast) hlt
          · rw [List.mem_singleton] at hx
            rw [hx]
            exact hlt
        · intro x hx
          rw [mem_all, hlast]
          rcases List.mem_append.mp hx with hx | hx
          · exact .inl hx
          · rw [List.mem_singleton] at hx
            exact .inr (by rw [hx])
      · refine ⟨h.closed, fun x hx => ?_, fun x hx => mem_all.mpr (.inl hx)⟩
        exact Nat.lt_of_lt_of_le (h.closed_lt x hx _ hlast) hcur
  refine ⟨hclosed.1, fun x hx y hy => ?_, fun hnone => ?_, ?_⟩
  · obtain rfl := Option.some.inj (hnew.symm.trans hy)
    rw [hkey]
    exact hclosed.2.1 x hx
  · exact nomatch hnew.symm.trans hnone
  · intro s hseed x hx
    rcases mem_all.mp hx with hx | hx
    · exact h.above s hseed x (hclosed.2.2 x hx)
    · obtain rfl := Option.some.inj (hnew.symm.trans hx)
      rw [hkey]
      exact hs s hseed

/-! ### Coverage -/

/-- The watermark stays below any bound of the seed and the groups. -/
theorem sortKey_watermark_lt {groups : List (P × List Row)} {bound : Nat}
    (hs : ∀ s ∈ seed, Position.sortKey s < bound)
    (hg : ∀ x ∈ groups, Position.sortKey x.1 < bound) :
    ∀ w ∈ watermark seed groups, Position.sortKey w < bound := by
  induction groups generalizing seed with
  | nil => exact hs
  | cons x groups ih =>
    apply ih
    · intro w hw
      obtain rfl := Option.some.inj hw
      have hx := hg x (by simp)
      rcases seed with _ | s
      · rwa [LawfulPosition.advance_none]
      · rw [LawfulPosition.sortKey_advance]
        exact Nat.max_lt.mpr ⟨hs s rfl, hx⟩
    · exact fun y hy => hg y (by simp [hy])

/-- A watermark below a position does not cover it. -/
theorem any_contains_eq_false {w : Option P}
    (h : ∀ q ∈ w, Position.sortKey q < Position.sortKey position) :
    w.any (Position.contains · position) = false := by
  rcases w with _ | w
  · rfl
  · rw [Option.any_some, Bool.eq_false_iff]
    intro hcontains
    have := LawfulPosition.le_of_contains w position hcontains
    have := h w rfl
    omega

/-- Once a group is closed, the watermark of some of the groups covers nothing at or above the last
one, unless none of them has been written. -/
theorem Ordered.watermark_any (h : Ordered seed g) {groups : List (P × List Row)}
    (hsub : ∀ x ∈ groups, x ∈ g.closed) (hclosed : g.closed ≠ [])
    (hle : ∀ x ∈ g.last, Position.sortKey x.1 ≤ Position.sortKey position) :
    (watermark seed groups).any (Position.contains · position) = false := by
  rcases hlast : g.last with _ | last
  · exact absurd (h.fresh hlast) hclosed
  · have hpos := hle last hlast
    apply any_contains_eq_false
    apply sortKey_watermark_lt
    · intro s hs
      obtain ⟨x, hx⟩ := List.exists_mem_of_ne_nil _ hclosed
      have := h.above s hs x (mem_all.mpr (.inl hx))
      have := h.closed_lt x hx last hlast
      omega
    · intro x hx
      have := h.closed_lt x (hsub x hx) last hlast
      omega

end Lawful

end Groups

end ArtemisLight
