import ArtemisLight.Persistence.Writer.Effects

/-!
# The positions behind the rows

A row does not say for which position it was accepted.  `labels` reads it off a trace: each accepted
row waits under its sort key, with its position, until the group at that key is written.
-/

namespace ArtemisLight

variable {P E : Type} [Position P]

/-- The accepted rows, each with its position: those of a sort key that wait to be written, and
those that have been written, in order. -/
structure Labels (P : Type) where
  waiting : Nat → List (P × Row)
  written : List (P × Row)

/-- One effect on the labels. -/
def labelStep (l : Labels P) : Effect P E → Labels P
  | .accepted _ p _ row =>
    { l with waiting := fun k =>
        if k = Position.sortKey p then l.waiting k ++ [(p, row)] else l.waiting k }
  | .wrote _ p _ =>
    ⟨fun k => if k = Position.sortKey p then [] else l.waiting k,
      l.written ++ l.waiting (Position.sortKey p)⟩
  | _ => l

def labels (effects : List (Effect P E)) : Labels P := effects.foldl labelStep ⟨fun _ => [], []⟩

/-- The accepted rows that wait to be written at a sort key. -/
abbrev waiting (effects : List (Effect P E)) (k : Nat) : List (P × Row) :=
  (labels effects).waiting k

/-- The positions accepted so far. -/
abbrev acceptedPositions (effects : List (Effect P E)) : List P := (accepts effects).map Prod.fst

theorem labels_concat (l : List (Effect P E)) (x : Effect P E) :
    labels (l ++ [x]) = labelStep (labels l) x := by
  simp [labels]

theorem waiting_accepted (l : List (Effect P E)) (w : Writer) (p : P) (e : E) (row : Row)
    (k : Nat) :
    waiting (l ++ [.accepted w p e row]) k
      = if k = Position.sortKey p then waiting l k ++ [(p, row)] else waiting l k := by
  rw [waiting, labels_concat]
  rfl

theorem waiting_wrote (l : List (Effect P E)) (w : Writer) (p : P) (rows : List Row) (k : Nat) :
    waiting (l ++ [.wrote w p rows]) k = if k = Position.sortKey p then [] else waiting l k := by
  rw [waiting, labels_concat]
  rfl

/-- An effect that neither accepts nor writes changes no label. -/
theorem labels_of_silent (l : List (Effect P E)) {x : Effect P E} (ha : x.accepted? = none)
    (hw : x.wrote? = none) : labels (l ++ [x]) = labels l := by
  rw [labels_concat]
  cases x with
  | accepted w p e row => exact absurd ha (by simp [Effect.accepted?])
  | wrote w p rows => exact absurd hw (by simp [Effect.wrote?])
  | _ => rfl

omit [Position P] in
@[simp] theorem acceptedPositions_accepted (l : List (Effect P E)) (w : Writer) (p : P) (e : E)
    (row : Row) :
    acceptedPositions (l ++ [.accepted w p e row]) = acceptedPositions l ++ [p] := by
  rw [acceptedPositions, accepts_append, List.map_append]
  rfl

omit [Position P] in
theorem accepts_of_not_accepted (l : List (Effect P E)) {x : Effect P E} (ha : x.accepted? = none) :
    accepts (l ++ [x]) = accepts l := by
  have hnone : accepts [x] = [] := List.filterMap_cons_none ha
  rw [accepts_append, hnone, List.append_nil]

theorem sortKey_of_waiting {l : List (Effect P E)} {k : Nat} {x : P × Row} (hx : x ∈ waiting l k) :
    Position.sortKey x.1 = k := by
  induction l using List.reverseRecOn with
  | nil => exact nomatch hx
  | append_singleton l y ih =>
    cases y with
    | accepted w p e row =>
      rw [waiting_accepted] at hx
      split at hx
      · rcases List.mem_append.mp hx with hx | hx
        · exact ih hx
        · rw [List.mem_singleton.mp hx]
          exact Eq.symm ‹_›
      · exact ih hx
    | wrote w p rows =>
      rw [waiting_wrote] at hx
      split at hx
      · exact nomatch hx
      · exact ih hx
    | _ =>
      rw [waiting, labels_of_silent l rfl rfl] at hx
      exact ih hx

/-- Every accepted position waits or has been written, as often as it was accepted. -/
theorem count_labels [DecidableEq P] (l : List (Effect P E)) (q : P) :
    ((labels l).written.map Prod.fst).count q
        + ((waiting l (Position.sortKey q)).map Prod.fst).count q
      = (acceptedPositions l).count q := by
  induction l using List.reverseRecOn with
  | nil => rfl
  | append_singleton l y ih =>
    cases y with
    | accepted w p e row =>
      rw [acceptedPositions_accepted, List.count_append, ← ih, waiting_accepted, labels_concat]
      -- an event is counted as waiting as soon as it is accepted
      by_cases hq : q = p
      · subst hq
        rw [if_pos rfl, List.map_append, List.count_append, Nat.add_assoc]
        rfl
      · have hzero : [p].count q = 0 := List.count_eq_zero.mpr (by simpa using hq)
        have hsame : ((labelStep (labels l) (.accepted w p e row)).written.map Prod.fst).count q
            = ((labels l).written.map Prod.fst).count q := rfl
        rw [hzero, hsame]
        split
        · rw [List.map_append, List.count_append]
          simp [hzero]
        · rfl
    -- a write moves the labels of its instant from waiting to written
    | wrote w p rows =>
      rw [acceptedPositions, accepts_of_not_accepted l rfl, ← ih, waiting_wrote, labels_concat]
      have hwritten : (labelStep (labels l) (.wrote w p rows : Effect P E)).written
          = (labels l).written ++ waiting l (Position.sortKey p) := rfl
      rw [hwritten, List.map_append, List.count_append]
      split
      · rw [‹Position.sortKey q = _›]
        rfl
      · have hzero : ((waiting l (Position.sortKey p)).map Prod.fst).count q = 0 := by
          rw [List.count_eq_zero]
          intro hmem
          obtain ⟨x, hx, rfl⟩ := List.mem_map.mp hmem
          exact absurd (sortKey_of_waiting hx) ‹_›
        rw [hzero, Nat.add_zero]
    | _ =>
      rw [acceptedPositions, accepts_of_not_accepted l rfl, waiting, labels_of_silent l rfl rfl]
      exact ih

theorem accepted_of_waiting {l : List (Effect P E)} {k : Nat} {x : P × Row} (hx : x ∈ waiting l k) :
    x.1 ∈ acceptedPositions l := by
  classical
  have hcount := count_labels l x.1
  rw [sortKey_of_waiting hx] at hcount
  have hpos : 0 < ((waiting l k).map Prod.fst).count x.1 :=
    List.count_pos_iff.mpr (List.mem_map_of_mem hx)
  exact List.count_pos_iff.mp (by omega)

/-- Positions that were accepted once have been written at most once. -/
theorem nodup_written [DecidableEq P] {known : List P} {l : List (Effect P E)}
    (h : (known ++ acceptedPositions l).Nodup) :
    (known ++ (labels l).written.map Prod.fst).Nodup := by
  rw [List.nodup_iff_count_le_one] at h ⊢
  intro q
  have hq := h q
  have hcount := count_labels l q
  rw [List.count_append] at hq ⊢
  omega

end ArtemisLight
