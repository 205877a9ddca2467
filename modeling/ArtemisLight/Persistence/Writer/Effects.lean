import ArtemisLight.Lib.Trace
import ArtemisLight.Persistence.Writer.Core

/-!
# Reading the effects of a subscription

The effects of a subscription are the trace its properties speak about.  `held` is the abstract
buffer behind both writers: what was accepted at each sort key and not rewound since.
`Archive.after` is what a store holds once the writes of a trace have committed.
-/

namespace ArtemisLight

variable {P E : Type}

namespace Effect

/-- The event a consumer receives. -/
def yielded? : Effect P E → Option E
  | .yielded event => some event
  | _ => none

/-- The group handed to the store. -/
def wrote? : Effect P E → Option (P × List Row)
  | .wrote _ position rows => some (position, rows)
  | _ => none

/-- The event and row taken into a writer's buffer. -/
def accepted? : Effect P E → Option (P × E)
  | .accepted _ position event _ => some (position, event)
  | _ => none

end Effect

/-- The events a consumer has received, in order. -/
def yields (effects : List (Effect P E)) : List E := effects.filterMap Effect.yielded?

/-- The groups written, in order. -/
def writes (effects : List (Effect P E)) : List (P × List Row) := effects.filterMap Effect.wrote?

/-- The positioned events accepted for storage, in order. -/
def accepts (effects : List (Effect P E)) : List (P × E) := effects.filterMap Effect.accepted?

@[simp] theorem yields_append (l l' : List (Effect P E)) :
    yields (l ++ l') = yields l ++ yields l' :=
  List.filterMap_append

@[simp] theorem writes_append (l l' : List (Effect P E)) :
    writes (l ++ l') = writes l ++ writes l' :=
  List.filterMap_append

@[simp] theorem accepts_append (l l' : List (Effect P E)) :
    accepts (l ++ l') = accepts l ++ accepts l' :=
  List.filterMap_append

theorem mem_writes {effects : List (Effect P E)} {p : P} {rows : List Row} :
    (p, rows) ∈ writes effects ↔ ∃ w, .wrote w p rows ∈ effects := by
  simp only [writes, List.mem_filterMap]
  constructor
  · rintro ⟨x, hx, h⟩
    cases x <;> simp only [Effect.wrote?, reduceCtorEq, Option.some.injEq, Prod.mk.injEq] at h
    obtain ⟨rfl, rfl⟩ := h
    exact ⟨_, hx⟩
  · rintro ⟨w, hw⟩
    exact ⟨_, hw, rfl⟩

variable [Position P]

/-! ### The held rows -/

/-- One effect on what is held at each sort key. -/
def heldStep (held : Nat → List (E × Row)) : Effect P E → Nat → List (E × Row)
  | .accepted _ p event row, k =>
    if k = Position.sortKey p then held k ++ [(event, row)] else held k
  | .rewound key, k => if key ≤ k then [] else held k
  | .rebuilt key, k => if k = key then [] else held k
  | _, k => held k

/-- The events accepted at each sort key and neither rewound nor rebuilt since, in order, each with
its row. -/
def held (effects : List (Effect P E)) : Nat → List (E × Row) := effects.foldl heldStep fun _ => []

/-- The rows held at a sort key. -/
abbrev heldRows (effects : List (Effect P E)) (k : Nat) : List Row := (held effects k).map Prod.snd

/-- The events held at a sort key. -/
abbrev heldEvents (effects : List (Effect P E)) (k : Nat) : List E := (held effects k).map Prod.fst

@[simp] theorem held_nil : held ([] : List (Effect P E)) = fun _ => [] := rfl

theorem held_concat (l : List (Effect P E)) (x : Effect P E) :
    held (l ++ [x]) = heldStep (held l) x := by
  simp [held]

@[simp] theorem held_concat_accepted (l : List (Effect P E)) (w : Writer) (p : P) (e : E)
    (row : Row)
    (k : Nat) : held (l ++ [.accepted w p e row]) k
      = if k = Position.sortKey p then held l k ++ [(e, row)] else held l k := by
  rw [held_concat]; rfl

@[simp] theorem held_concat_rewound (l : List (Effect P E)) (key k : Nat) :
    held (l ++ [.rewound key]) k = if key ≤ k then [] else held l k := by
  rw [held_concat]; rfl

@[simp] theorem held_concat_rebuilt (l : List (Effect P E)) (key k : Nat) :
    held (l ++ [.rebuilt key]) k = if k = key then [] else held l k := by
  rw [held_concat]; rfl

@[simp] theorem held_concat_wrote (l : List (Effect P E)) (w : Writer) (p : P) (rows : List Row) :
    held (l ++ [.wrote w p rows]) = held l := by
  rw [held_concat]; rfl

@[simp] theorem held_concat_halted (l : List (Effect P E)) (w : Writer) (r : HaltReason P) :
    held (l ++ [.halted w r]) = held l := by
  rw [held_concat]; rfl

@[simp] theorem held_concat_yielded (l : List (Effect P E)) (e : E) :
    held (l ++ [.yielded e]) = held l := by
  rw [held_concat]; rfl

@[simp] theorem held_concat_suppressed (l : List (Effect P E)) (p : P) (e : E) :
    held (l ++ [.suppressed p e]) = held l := by
  rw [held_concat]; rfl

/-- What is held at a key was accepted at that key. -/
theorem mem_held {l : List (Effect P E)} {k : Nat} {x : E × Row} (hx : x ∈ held l k) :
    ∃ w p, .accepted w p x.1 x.2 ∈ l ∧ Position.sortKey p = k := by
  induction l using List.reverseRecOn with
  | nil => exact absurd hx (by simp)
  | append_singleton l y ih =>
    have hold : x ∈ held l k → ∃ w p, .accepted w p x.1 x.2 ∈ l ++ [y] ∧
      Position.sortKey p = k := by
      intro hx
      obtain ⟨w, p, hm, hk⟩ := ih hx
      exact ⟨w, p, by simp [hm], hk⟩
    rw [held_concat] at hx
    cases y with
    | accepted w p e row =>
      simp only [heldStep] at hx
      split at hx
      · rw [List.mem_append, List.mem_singleton] at hx
        rcases hx with hx | rfl
        · exact hold hx
        · exact ⟨w, p, by simp, by simp [*]⟩
      · exact hold hx
    | rewound key =>
      simp only [heldStep] at hx
      split at hx
      · exact absurd hx (by simp)
      · exact hold hx
    | rebuilt key =>
      simp only [heldStep] at hx
      split at hx
      · exact absurd hx (by simp)
      · exact hold hx
    | wrote _ _ _ => exact hold hx
    | halted _ _ => exact hold hx
    | yielded _ => exact hold hx
    | suppressed _ _ => exact hold hx

/-- A write or a halt: what is held does not change, and a consumer sees nothing. -/
def Effect.Quiet : Effect P E → Prop
  | .wrote .. | .halted .. => True
  | _ => False

theorem held_append_of_quiet (l : List (Effect P E)) {l' : List (Effect P E)}
    (h : ∀ x ∈ l', x.Quiet) : held (l ++ l') = held l := by
  induction l' using List.reverseRecOn with
  | nil => rw [List.append_nil]
  | append_singleton l' x ih =>
    have hx := h x (by simp)
    rw [← List.append_assoc, held_concat, ih fun y hy => h y (by simp [hy])]
    cases x <;> first | rfl | exact absurd hx id

omit [Position P] in
theorem yields_of_quiet {l : List (Effect P E)} (h : ∀ x ∈ l, x.Quiet) : yields l = [] := by
  unfold yields
  rw [List.filterMap_eq_nil_iff]
  intro x hx
  have := h x hx
  cases x <;> first | rfl | exact absurd this id

omit [Position P] in
theorem accepts_of_quiet {l : List (Effect P E)} (h : ∀ x ∈ l, x.Quiet) : accepts l = [] := by
  unfold accepts
  rw [List.filterMap_eq_nil_iff]
  intro x hx
  have := h x hx
  cases x <;> first | rfl | exact absurd this id

/-! ### The archive behind a trace -/

/-- What a store holds once the writes of a trace have committed. -/
def Archive.after (a : Archive P) (effects : List (Effect P E)) : Archive P :=
  (writes effects).foldl (fun a g => a.commit g.1 g.2) a

@[simp] theorem Archive.after_nil (a : Archive P) : a.after ([] : List (Effect P E)) = a := rfl

theorem Archive.after_append (a : Archive P) (l l' : List (Effect P E)) :
    a.after (l ++ l') = (a.after l).after l' := by
  simp [Archive.after, List.foldl_append]

end ArtemisLight
