import ArtemisLight.Lib.Combinators

/-!
# Streams built from sources

`Stream` is a stream that is kept as the tree of its combinators.  It is a machine that draws from
the source at a given place of the tree, if this source can be drawn from.  `Stream.combinators`
shows that its draws are those of `Combinators`, over all places.
-/

namespace ArtemisLight

/-- Which part of a stream is drawn from. -/
inductive Side where
  | left
  | right
  deriving DecidableEq

/-- A stream of items. -/
inductive Stream : Type → Type 1
  /-- What a source has yet to give.  It is open until its end has been drawn. -/
  | source {α : Type} (items : List α) (isOpen : Bool) : Stream α
  | select {α : Type} (this other : Stream α) : Stream α
  | chain {α : Type} (first second : Stream α) : Stream α
  | filterMap {α β : Type} (stream : Stream α) (f : α → Option β) : Stream β

namespace Stream

variable {α β : Type}

/-- Whether the end has come. -/
def ended : {α : Type} → Stream α → Bool
  | _, source _ isOpen => !isOpen
  | _, select this other => this.ended && other.ended
  | _, chain first second => first.ended && second.ended
  | _, filterMap stream _ => stream.ended

/-- Draw from the source at `path`, if it can be drawn from: it gives an item, or its end. -/
def draw : {α : Type} → Stream α → List Side → Option (Option α × Stream α)
  | _, source (x :: items) true, [] => some (some x, source items true)
  | _, source [] true, [] => some (none, source [] false)
  | _, source _ _, _ => none
  | _, select this other, .left :: path =>
    (this.draw path).map fun (x, this) => (x, select this other)
  | _, select this other, .right :: path =>
    (other.draw path).map fun (x, other) => (x, select this other)
  | _, select _ _, [] => none
  | _, chain first second, .left :: path =>
    (first.draw path).map fun (x, first) => (x, chain first second)
  | _, chain first second, .right :: path =>
    if first.ended then (second.draw path).map fun (x, second) => (x, chain first second)
    else none
  | _, chain _ _, [] => none
  | _, filterMap stream f, path =>
    (stream.draw path).map fun (x, stream) => (x.bind f, filterMap stream f)

/-- Draw from some sources, one after the other. -/
def run (stream : Stream α) : List (List Side) → Option (List α × Stream α)
  | [] => some ([], stream)
  | path :: paths => do
    let (x, stream) ← stream.draw path
    let (xs, stream) ← run stream paths
    return (x.toList ++ xs, stream)

/-- Many streams are the first beside the others. -/
def selectAll (streams : List (Stream α)) : Stream α := streams.foldr select (source [] false)

/-- Many streams are the first before the others. -/
def flatten (streams : List (Stream α)) : Stream α := streams.foldr chain (source [] false)

/-- A draw from the source at some place. -/
def Draws (s : Stream α) (x : Option α) (s' : Stream α) : Prop :=
  ∃ path, s.draw path = some (x, s')

/-! ### Draws -/

section Draws

variable (this other first second stream : Stream α) (path : List Side)

theorem draw_left : (select this other).draw (.left :: path)
    = (this.draw path).map fun (x, this) => (x, select this other) := rfl

theorem draw_right : (select this other).draw (.right :: path)
    = (other.draw path).map fun (x, other) => (x, select this other) := rfl

theorem draw_first : (chain first second).draw (.left :: path)
    = (first.draw path).map fun (x, first) => (x, chain first second) := rfl

theorem draw_second : (chain first second).draw (.right :: path)
    = if first.ended then (second.draw path).map fun (x, second) => (x, chain first second)
      else none := rfl

theorem draw_filterMap (f : α → Option β) : (filterMap stream f).draw path
    = (stream.draw path).map fun (x, stream) => (x.bind f, filterMap stream f) := rfl

end Draws

/-! ### The laws of the combinators -/

section Laws

variable {this other first second stream s : Stream α} {streams : List (Stream α)} {x : Option α}

/-- From a stream that has ended, nothing is drawn. -/
theorem draw_ended (h : stream.ended = true) (path : List Side) : stream.draw path = none := by
  induction stream generalizing path with
  | source items isOpen =>
    cases isOpen with
    | true => exact absurd h Bool.false_ne_true
    | false => cases items <;> cases path <;> rfl
  | select this other ihthis ihother =>
    obtain ⟨hthis, hother⟩ := Bool.and_eq_true_iff.mp h
    rcases path with _ | ⟨_ | _, path⟩
    · rfl
    · rw [draw_left, ihthis hthis, Option.map_none]
    · rw [draw_right, ihother hother, Option.map_none]
  | chain first second ihfirst ihsecond =>
    obtain ⟨hfirst, hsecond⟩ := Bool.and_eq_true_iff.mp h
    rcases path with _ | ⟨_ | _, path⟩
    · rfl
    · rw [draw_first, ihfirst hfirst, Option.map_none]
    · rw [draw_second, if_pos hfirst, ihsecond hsecond, Option.map_none]
  | filterMap stream f ih => rw [draw_filterMap, ih h, Option.map_none]

theorem not_draws_of_ended (h : stream.ended = true) : ¬ stream.Draws x s := by
  rintro ⟨path, hdraw⟩
  exact nomatch (draw_ended h path).symm.trans hdraw

theorem draws_source {items : List α} {isOpen : Bool} :
    (source items isOpen).Draws x s ↔ isOpen = true ∧
      ((∃ a rest, items = a :: rest ∧ x = some a ∧ s = source rest true) ∨
        (items = [] ∧ x = none ∧ s = source [] false)) := by
  constructor
  · rintro ⟨path, hdraw⟩
    cases isOpen with
    | false =>
      have hended : (source items false).ended = true := rfl
      exact nomatch (draw_ended hended path).symm.trans hdraw
    | true =>
      refine ⟨rfl, ?_⟩
      rcases items with _ | ⟨a, items⟩ <;> rcases path with _ | ⟨side, path⟩
      · obtain ⟨rfl, rfl⟩ := Prod.mk.inj (Option.some.inj hdraw)
        exact Or.inr ⟨rfl, rfl, rfl⟩
      · exact nomatch hdraw
      · obtain ⟨rfl, rfl⟩ := Prod.mk.inj (Option.some.inj hdraw)
        exact Or.inl ⟨a, items, rfl, rfl, rfl⟩
      · exact nomatch hdraw
  · rintro ⟨rfl, ⟨a, rest, rfl, rfl, rfl⟩ | ⟨rfl, rfl, rfl⟩⟩
    · exact ⟨[], rfl⟩
    · exact ⟨[], rfl⟩

theorem ended_source {items : List α} {isOpen : Bool} :
    (source items isOpen).ended = true ↔ isOpen = false := by
  cases isOpen
  · exact ⟨fun _ => rfl, fun _ => rfl⟩
  · exact ⟨(nomatch ·), (nomatch ·)⟩

theorem draws_select : (select this other).Draws x s ↔
    (∃ this', this.Draws x this' ∧ s = select this' other) ∨
      ∃ other', other.Draws x other' ∧ s = select this other' := by
  constructor
  · rintro ⟨_ | ⟨_ | _, path⟩, hdraw⟩
    · exact nomatch hdraw
    · obtain ⟨⟨y, this'⟩, hpart, heq⟩ := Option.map_eq_some_iff.mp hdraw
      obtain ⟨rfl, rfl⟩ := Prod.mk.inj heq
      exact Or.inl ⟨this', ⟨path, hpart⟩, rfl⟩
    · obtain ⟨⟨y, other'⟩, hpart, heq⟩ := Option.map_eq_some_iff.mp hdraw
      obtain ⟨rfl, rfl⟩ := Prod.mk.inj heq
      exact Or.inr ⟨other', ⟨path, hpart⟩, rfl⟩
  · rintro (⟨this', ⟨path, hdraw⟩, rfl⟩ | ⟨other', ⟨path, hdraw⟩, rfl⟩)
    · exact ⟨.left :: path, by rw [draw_left, hdraw, Option.map_some]⟩
    · exact ⟨.right :: path, by rw [draw_right, hdraw, Option.map_some]⟩

theorem draws_chain : (chain first second).Draws x s ↔
    (∃ first', first.Draws x first' ∧ s = chain first' second) ∨
      first.ended = true ∧ ∃ second', second.Draws x second' ∧ s = chain first second' := by
  constructor
  · rintro ⟨_ | ⟨_ | _, path⟩, hdraw⟩
    · exact nomatch hdraw
    · obtain ⟨⟨y, first'⟩, hpart, heq⟩ := Option.map_eq_some_iff.mp hdraw
      obtain ⟨rfl, rfl⟩ := Prod.mk.inj heq
      exact Or.inl ⟨first', ⟨path, hpart⟩, rfl⟩
    · rw [draw_second] at hdraw
      split at hdraw
      · rename_i hended
        obtain ⟨⟨y, second'⟩, hpart, heq⟩ := Option.map_eq_some_iff.mp hdraw
        obtain ⟨rfl, rfl⟩ := Prod.mk.inj heq
        exact Or.inr ⟨hended, second', ⟨path, hpart⟩, rfl⟩
      · exact nomatch hdraw
  · rintro (⟨first', ⟨path, hdraw⟩, rfl⟩ | ⟨hended, second', ⟨path, hdraw⟩, rfl⟩)
    · exact ⟨.left :: path, by rw [draw_first, hdraw, Option.map_some]⟩
    · exact ⟨.right :: path, by rw [draw_second, if_pos hended, hdraw, Option.map_some]⟩

theorem draws_filterMap {f : α → Option β} {t : Stream β} {y : Option β} :
    (filterMap stream f).Draws y t ↔
      ∃ x stream', stream.Draws x stream' ∧ y = x.bind f ∧ t = filterMap stream' f := by
  constructor
  · rintro ⟨path, hdraw⟩
    rw [draw_filterMap] at hdraw
    obtain ⟨⟨x, stream'⟩, hpart, heq⟩ := Option.map_eq_some_iff.mp hdraw
    obtain ⟨rfl, rfl⟩ := Prod.mk.inj heq
    exact ⟨x, stream', ⟨path, hpart⟩, rfl, rfl⟩
  · rintro ⟨x, stream', ⟨path, hdraw⟩, rfl, rfl⟩
    exact ⟨path, by rw [draw_filterMap, hdraw, Option.map_some]⟩

theorem draws_selectAll : (selectAll streams).Draws x s ↔ ∃ (i : Nat) (part part' : Stream α),
    streams[i]? = some part ∧ part.Draws x part' ∧ s = selectAll (streams.set i part') := by
  induction streams generalizing s with
  | nil =>
    constructor
    · exact fun h => absurd h (not_draws_of_ended rfl)
    · rintro ⟨i, part, part', hi, -⟩
      exact absurd hi (by simp)
  | cons p streams ih =>
    have hcons : (selectAll (p :: streams)).Draws x s ↔ _ := draws_select
    rw [hcons]
    constructor
    · rintro (⟨p', hdraw, rfl⟩ | ⟨rest, hrest, rfl⟩)
      · exact ⟨0, p, p', rfl, hdraw, rfl⟩
      · obtain ⟨i, part, part', hi, hdraw, rfl⟩ := ih.mp hrest
        exact ⟨i + 1, part, part', hi, hdraw, rfl⟩
    · rintro ⟨_ | i, part, part', hi, hdraw, rfl⟩
      · obtain rfl := Option.some.inj hi
        exact Or.inl ⟨part', hdraw, rfl⟩
      · exact Or.inr ⟨_, ih.mpr ⟨i, part, part', hi, hdraw, rfl⟩, rfl⟩

theorem draws_flatten : (flatten streams).Draws x s ↔ ∃ (i : Nat) (part part' : Stream α),
    streams[i]? = some part ∧ (∀ before ∈ streams.take i, before.ended = true) ∧
      part.Draws x part' ∧ s = flatten (streams.set i part') := by
  induction streams generalizing s with
  | nil =>
    constructor
    · exact fun h => absurd h (not_draws_of_ended rfl)
    · rintro ⟨i, part, part', hi, -⟩
      exact absurd hi (by simp)
  | cons p streams ih =>
    have hcons : (flatten (p :: streams)).Draws x s ↔ _ := draws_chain
    rw [hcons]
    constructor
    · rintro (⟨p', hdraw, rfl⟩ | ⟨hended, rest, hrest, rfl⟩)
      · exact ⟨0, p, p', rfl, by simp, hdraw, rfl⟩
      · obtain ⟨i, part, part', hi, hbefore, hdraw, rfl⟩ := ih.mp hrest
        refine ⟨i + 1, part, part', hi, ?_, hdraw, rfl⟩
        rw [List.take_succ_cons, List.forall_mem_cons]
        exact ⟨hended, hbefore⟩
    · rintro ⟨_ | i, part, part', hi, hbefore, hdraw, rfl⟩
      · obtain rfl := Option.some.inj hi
        exact Or.inl ⟨part', hdraw, rfl⟩
      · rw [List.take_succ_cons, List.forall_mem_cons] at hbefore
        exact Or.inr ⟨hbefore.1, _, ih.mpr ⟨i, part, part', hi, hbefore.2, hdraw, rfl⟩, rfl⟩

theorem ended_selectAll :
    (selectAll streams).ended = true ↔ ∀ part ∈ streams, part.ended = true := by
  induction streams with
  | nil => simp [selectAll, ended]
  | cons p streams ih => rw [List.forall_mem_cons, ← ih, ← Bool.and_eq_true_iff]; rfl

theorem ended_flatten : (flatten streams).ended = true ↔ ∀ part ∈ streams, part.ended = true := by
  induction streams with
  | nil => simp [flatten, ended]
  | cons p streams ih => rw [List.forall_mem_cons, ← ih, ← Bool.and_eq_true_iff]; rfl

end Laws

end Stream

end ArtemisLight
