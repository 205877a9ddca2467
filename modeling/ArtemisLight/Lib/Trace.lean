import Mathlib.Data.List.Basic

/-!
# Properties of a trace

A trace is the list of what happened, oldest first.  `Always C l` says that every entry `x` of `l`
satisfies `C past x`, where `past` is the part of the trace before it.  Such properties hold of
every prefix of the trace, so they hold at every moment of a run, and a run extends them one entry
at a time.
-/

namespace ArtemisLight

variable {α β : Type*}

/-- Every entry of the trace stands in the relation `C` to its past. -/
def Always (C : List α → α → Prop) (l : List α) : Prop :=
  ∀ past x rest, l = past ++ x :: rest → C past x

namespace Always

variable {C D : List α → α → Prop} {l l' : List α} {x : α}

theorem nil : Always C [] := by
  intro past x rest h
  simp at h

/-- An extension of the trace has to satisfy the property from where the trace ended. -/
theorem append (hl : Always C l) (hl' : ∀ past x rest, l' = past ++ x :: rest → C (l ++ past) x) :
    Always C (l ++ l') := by
  intro past x rest h
  rcases List.append_eq_append_iff.mp h with ⟨as, has, hr⟩ | ⟨as, has, hr⟩
  · rw [has]
    exact hl' as x rest hr
  · rcases as with _ | ⟨a, as⟩
    · rw [List.append_nil] at has
      rw [List.nil_append] at hr
      have := hl' [] x rest hr.symm
      rwa [List.append_nil, has] at this
    · rw [List.cons_append, List.cons.injEq] at hr
      obtain ⟨rfl, -⟩ := hr
      exact hl past x as has

theorem concat (hl : Always C l) (hx : C l x) : Always C (l ++ [x]) := by
  refine hl.append fun past y rest h => ?_
  rcases past with _ | ⟨a, past⟩
  · rw [List.nil_append, List.cons.injEq] at h
    rwa [List.append_nil, ← h.1]
  · simp at h

/-- Entries that satisfy the property whatever their past can always be appended. -/
theorem append_of_forall (hl : Always C l) (hl' : ∀ x ∈ l', ∀ past, C past x) :
    Always C (l ++ l') :=
  hl.append fun past x rest h => hl' x (by rw [h]; simp) _

theorem of_append (h : Always C (l ++ l')) : Always C l := by
  intro past x rest hl
  exact h past x (rest ++ l') (by rw [hl]; simp)

/-- The property holds of every moment of the run. -/
theorem of_isPrefix (h : Always C l) (hp : l' <+: l) : Always C l' := by
  obtain ⟨t, rfl⟩ := hp
  exact h.of_append

theorem mono (h : Always C l) (hCD : ∀ past x, C past x → D past x) : Always D l :=
  fun past x rest hl => hCD past x (h past x rest hl)

theorem and (hC : Always C l) (hD : Always D l) : Always (fun past x => C past x ∧ D past x) l :=
  fun past x rest hl => ⟨hC past x rest hl, hD past x rest hl⟩

/-- The property of the last entry of an extended trace. -/
theorem last (h : Always C (l ++ [x])) : C l x := h l x [] rfl

end Always

/-- The invariant rule of a left fold over a known list: `I done b` is preserved by the step on the
entry that comes next. -/
theorem foldl_invariant {f : β → α → β} (I : List α → β → Prop) {l : List α} {b : β} (h0 : I [] b)
    (hstep : ∀ done x rest b, l = done ++ x :: rest → I done b → I (done ++ [x]) (f b x)) :
    I l (l.foldl f b) := by
  suffices h : ∀ rest done b, l = done ++ rest → I done b → I l (rest.foldl f b) from
    h l [] b rfl h0
  intro rest
  induction rest with
  | nil =>
    intro done b hl hI
    rw [List.append_nil] at hl
    rwa [List.foldl_nil, hl]
  | cons x rest ih =>
    intro done b hl hI
    exact ih (done ++ [x]) (f b x) (by rw [hl]; simp) (hstep done x rest b hl hI)

/-- The invariant rule of a left fold whose step preserves the invariant on every entry of the
list. -/
theorem foldl_preserves {f : β → α → β} (I : β → Prop) {l : List α} {b : β} (h0 : I b)
    (hstep : ∀ b, ∀ x ∈ l, I b → I (f b x)) : I (l.foldl f b) :=
  foldl_invariant (fun _ b => I b) h0 fun done x rest b hl hI =>
    hstep b x (by rw [hl]; simp) hI

end ArtemisLight
