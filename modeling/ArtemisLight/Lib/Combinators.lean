import Mathlib.Data.List.Perm.Basic
import Mathlib.Data.Set.Image

/-!
# Combinators of streams

A stream gives items until it ends.  What it can have given by some moment is its `Behaviour`, on
which interleaving, sequencing and filtering are operations of sets.  `Combinators` is what the
users of streams rely on, whatever these are made of: what one draw from a combined stream is, in
terms of the draws from its parts, in any order that the sources are ready in.

`behaviour_select` and its companions compute the behaviour of a stream from those of its parts,
and `live_select` and its companions show that it can always be drawn to its end.  Many streams are
treated as two by the bisimulations `bisimulation_selectAll` and `bisimulation_flatten`.
-/

namespace ArtemisLight

/-- A list in which two others are interleaved, each in its own order. -/
inductive Interleaves {α : Type*} : List α → List α → List α → Prop
  | nil : Interleaves [] [] []
  | left {x : α} {xs ys zs : List α} (h : Interleaves xs ys zs) : Interleaves (x :: xs) ys (x :: zs)
  | right {y : α} {xs ys zs : List α} (h : Interleaves xs ys zs) :
      Interleaves xs (y :: ys) (y :: zs)

/-- What can have been given by some moment, and whether the end has come. -/
abbrev Behaviour (α : Type*) := Set (List α × Bool)

namespace Behaviour

variable {α β : Type*}

/-- The items of a list, one after the other. -/
def of (items : List α) : Behaviour α :=
  {t | t.1 <+: items ∧ (t.2 = true → t.1 = items)}

/-- Nothing is given. -/
def finished : Behaviour α := of []

/-- Both, in any order; the end has come when it has come to both. -/
def interleave (A B : Behaviour α) : Behaviour α :=
  {t | ∃ x ∈ A, ∃ y ∈ B, Interleaves x.1 y.1 t.1 ∧ t.2 = (x.2 && y.2)}

/-- The second begins when the end of the first has come. -/
def andThen (A B : Behaviour α) : Behaviour α :=
  {t | (t.2 = false ∧ t ∈ A) ∨ ∃ xs, (xs, true) ∈ A ∧ ∃ y ∈ B, t = (xs ++ y.1, y.2)}

/-- What `f` keeps of each item. -/
def filterMap (f : α → Option β) (A : Behaviour α) : Behaviour β :=
  (fun t => (t.1.filterMap f, t.2)) '' A

/-! ### What is given and what is left -/

/-- What has been given and what is left are the items of a list, and at the end none is left. -/
def Conserves (A : Behaviour α) (l : List α) : Prop :=
  ∀ t ∈ A, ∃ rest, (t.1 ++ rest).Perm l ∧ (t.2 = true → rest = [])

theorem interleaves_perm {xs ys zs : List α} (h : Interleaves xs ys zs) : zs.Perm (xs ++ ys) := by
  induction h with
  | nil => exact .nil
  | left _ ih => exact ih.cons _
  | right _ ih => exact (ih.cons _).trans List.perm_middle.symm

theorem conserves_of (items : List α) : (of items).Conserves items := by
  rintro ⟨given, done⟩ ⟨⟨rest, hrest⟩, hdone⟩
  refine ⟨rest, by rw [← hrest], fun h => ?_⟩
  rw [hdone h] at hrest
  exact List.append_right_eq_self.mp hrest

theorem Conserves.interleave {A B : Behaviour α} {l l' : List α} (hA : A.Conserves l)
    (hB : B.Conserves l') : (A.interleave B).Conserves (l ++ l') := by
  rintro ⟨zs, done⟩ ⟨⟨xs, p⟩, hx, ⟨ys, q⟩, hy, hzs, rfl⟩
  obtain ⟨rest, hrest, hp⟩ := hA _ hx
  obtain ⟨rest', hrest', hq⟩ := hB _ hy
  refine ⟨rest ++ rest', ?_, fun h => ?_⟩
  · have hgiven := (interleaves_perm hzs).append_right (rest ++ rest')
    have hswap : (xs ++ ys ++ (rest ++ rest')).Perm (xs ++ rest ++ (ys ++ rest')) := by
      simp only [List.append_assoc]
      exact (List.perm_append_comm_assoc ys rest rest').append_left xs
    exact hgiven.trans (hswap.trans (hrest.append hrest'))
  · obtain ⟨rfl, rfl⟩ := Bool.and_eq_true_iff.mp h
    rw [hp rfl, hq rfl, List.append_nil]

theorem Conserves.andThen {A B : Behaviour α} {l l' : List α} (hA : A.Conserves l)
    (hB : B.Conserves l') : (A.andThen B).Conserves (l ++ l') := by
  rintro ⟨zs, done⟩ (⟨hopen, hzs⟩ | ⟨xs, hxs, ⟨ys, q⟩, hy, heq⟩)
  · obtain ⟨rest, hrest, -⟩ := hA _ hzs
    refine ⟨rest ++ l', ?_, fun h => absurd (hopen.symm.trans h) (by simp)⟩
    rw [← List.append_assoc]
    exact hrest.append_right l'
  · obtain ⟨rfl, rfl⟩ := Prod.mk.inj heq
    obtain ⟨rest, hrest, hended⟩ := hA _ hxs
    obtain ⟨rest', hrest', hq⟩ := hB _ hy
    obtain rfl := hended rfl
    rw [List.append_nil] at hrest
    refine ⟨rest', ?_, hq⟩
    rw [List.append_assoc]
    exact hrest.append hrest'

theorem Conserves.filterMap {A : Behaviour α} {l : List α} (hA : A.Conserves l)
    (f : α → Option β) : (A.filterMap f).Conserves (l.filterMap f) := by
  rintro _ ⟨⟨xs, p⟩, hx, rfl⟩
  obtain ⟨rest, hrest, hp⟩ := hA _ hx
  refine ⟨rest.filterMap f, ?_, fun h => ?_⟩
  · rw [← List.filterMap_append]
    exact hrest.filterMap f
  · rw [hp h, List.filterMap_nil]

theorem conserves_foldr {op : Behaviour α → Behaviour α → Behaviour α}
    (hop : ∀ {A B l l'}, Conserves A l → Conserves B l' → Conserves (op A B) (l ++ l'))
    {As : List (Behaviour α)} {ls : List (List α)} (h : List.Forall₂ Conserves As ls) :
    Conserves (As.foldr op finished) ls.flatten := by
  induction h with
  | nil => exact conserves_of []
  | cons hA _ ih => exact hop hA ih

end Behaviour

/-- Streams and their combinators, with the laws of a single draw. -/
structure Combinators where
  /-- A stream of items of this type. -/
  Stream : Type → Type 1
  /-- One draw gives an item or nothing, and leaves a stream. -/
  Draws {α : Type} : Stream α → Option α → Stream α → Prop
  Ended {α : Type} : Stream α → Prop
  /-- What a source has yet to give.  It is open until its end has been drawn. -/
  source {α : Type} (items : List α) (isOpen : Bool) : Stream α
  /-- Two streams, in whichever order they give their items. -/
  select {α : Type} (this other : Stream α) : Stream α
  /-- Many streams, in whichever order they give their items. -/
  selectAll {α : Type} (streams : List (Stream α)) : Stream α
  /-- The second stream when the first has ended. -/
  chain {α : Type} (first second : Stream α) : Stream α
  /-- Many streams, each when those before it have ended. -/
  flatten {α : Type} (streams : List (Stream α)) : Stream α
  filterMap {α β : Type} (stream : Stream α) (f : α → Option β) : Stream β
  /-- From a stream that has ended, nothing is drawn. -/
  not_draws_of_ended {α : Type} {s s' : Stream α} {x : Option α} : Ended s → ¬ Draws s x s'
  draws_source {α : Type} {items : List α} {isOpen : Bool} {x : Option α} {s : Stream α} :
    Draws (source items isOpen) x s ↔ isOpen = true ∧
      ((∃ a rest, items = a :: rest ∧ x = some a ∧ s = source rest true) ∨
        (items = [] ∧ x = none ∧ s = source [] false))
  ended_source {α : Type} {items : List α} {isOpen : Bool} :
    Ended (source items isOpen) ↔ isOpen = false
  draws_select {α : Type} {this other s : Stream α} {x : Option α} :
    Draws (select this other) x s ↔ (∃ this', Draws this x this' ∧ s = select this' other) ∨
      ∃ other', Draws other x other' ∧ s = select this other'
  ended_select {α : Type} {this other : Stream α} :
    Ended (select this other) ↔ Ended this ∧ Ended other
  draws_selectAll {α : Type} {streams : List (Stream α)} {s : Stream α} {x : Option α} :
    Draws (selectAll streams) x s ↔ ∃ (i : Nat) (part part' : Stream α),
      streams[i]? = some part ∧ Draws part x part' ∧ s = selectAll (streams.set i part')
  ended_selectAll {α : Type} {streams : List (Stream α)} :
    Ended (selectAll streams) ↔ ∀ part ∈ streams, Ended part
  draws_chain {α : Type} {first second s : Stream α} {x : Option α} :
    Draws (chain first second) x s ↔ (∃ first', Draws first x first' ∧ s = chain first' second) ∨
      Ended first ∧ ∃ second', Draws second x second' ∧ s = chain first second'
  ended_chain {α : Type} {first second : Stream α} :
    Ended (chain first second) ↔ Ended first ∧ Ended second
  draws_flatten {α : Type} {streams : List (Stream α)} {s : Stream α} {x : Option α} :
    Draws (flatten streams) x s ↔ ∃ (i : Nat) (part part' : Stream α), streams[i]? = some part ∧
      (∀ before ∈ streams.take i, Ended before) ∧ Draws part x part' ∧
        s = flatten (streams.set i part')
  ended_flatten {α : Type} {streams : List (Stream α)} :
    Ended (flatten streams) ↔ ∀ part ∈ streams, Ended part
  /-- An item that `f` does not keep is drawn, and nothing is given for it. -/
  draws_filterMap {α β : Type} {stream : Stream α} {f : α → Option β} {s : Stream β}
    {y : Option β} : Draws (filterMap stream f) y s ↔
      ∃ x stream', Draws stream x stream' ∧ y = x.bind f ∧ s = filterMap stream' f
  ended_filterMap {α β : Type} {stream : Stream α} {f : α → Option β} :
    Ended (filterMap stream f) ↔ Ended stream

namespace Combinators

variable {C : Combinators} {α β : Type}

/-- Some draws, one after the other, and what they give. -/
inductive Gives (C : Combinators) {α : Type} : C.Stream α → List α → C.Stream α → Prop
  | nil (s : C.Stream α) : Gives C s [] s
  | draw {s s' s'' : C.Stream α} {x : Option α} {xs : List α} (h : C.Draws s x s')
      (hs : Gives C s' xs s'') : Gives C s (x.toList ++ xs) s''

/-- What a stream can have given by some moment. -/
def behaviour (stream : C.Stream α) : Behaviour α :=
  {t | ∃ stream', C.Gives stream t.1 stream' ∧ (t.2 = true → C.Ended stream')}

/-- What a stream can give until its end. -/
def Remaining (C : Combinators) (stream : C.Stream α) (rest : List α) : Prop :=
  ∃ last, C.Gives stream rest last ∧ C.Ended last

/-- Whatever is drawn from the stream, it can be drawn to its end. -/
def Live (C : Combinators) (stream : C.Stream α) : Prop :=
  ∀ given stream', C.Gives stream given stream' → ∃ rest, C.Remaining stream' rest

/-! ### Draws one after the other -/

section Runs

variable {s s' s'' this this' other other' first first' second second' : C.Stream α}
  {xs ys zs : List α}

theorem Gives.append (h : C.Gives s xs s') (h' : C.Gives s' ys s'') : C.Gives s (xs ++ ys) s'' := by
  induction h with
  | nil => exact h'
  | draw hdraw _ ih =>
    rw [List.append_assoc]
    exact .draw hdraw (ih h')

theorem Gives.of_ended (h : C.Gives s xs s') (hended : C.Ended s) : xs = [] ∧ s' = s := by
  cases h with
  | nil => exact ⟨rfl, rfl⟩
  | draw hdraw _ => exact absurd hdraw (C.not_draws_of_ended hended)

/-- Draws that give an item give it at some point. -/
theorem Gives.split {x : α} (h : C.Gives s (x :: xs) s'') :
    ∃ s', C.Gives s [x] s' ∧ C.Gives s' xs s'' := by
  generalize hl : x :: xs = l at h
  induction h with
  | nil => exact absurd hl (by simp)
  | @draw s s' s'' y ys hdraw hs ih =>
    cases y with
    | none =>
      obtain ⟨t, hfirst, hrest⟩ := ih hl
      exact ⟨t, .draw hdraw hfirst, hrest⟩
    | some y =>
      obtain ⟨rfl, rfl⟩ := List.cons.inj hl
      exact ⟨s', .draw hdraw (.nil s'), hs⟩

theorem Gives.left (h : C.Gives this xs this') (other : C.Stream α) :
    C.Gives (C.select this other) xs (C.select this' other) := by
  induction h with
  | nil => exact .nil _
  | draw hdraw _ ih => exact .draw (C.draws_select.mpr (Or.inl ⟨_, hdraw, rfl⟩)) ih

theorem Gives.right (this : C.Stream α) (h : C.Gives other xs other') :
    C.Gives (C.select this other) xs (C.select this other') := by
  induction h with
  | nil => exact .nil _
  | draw hdraw _ ih => exact .draw (C.draws_select.mpr (Or.inr ⟨_, hdraw, rfl⟩)) ih

/-- What two streams give can be interleaved in every way. -/
theorem Gives.interleaved (hthis : C.Gives this xs this') (hother : C.Gives other ys other')
    (h : Interleaves xs ys zs) : C.Gives (C.select this other) zs (C.select this' other') := by
  induction h generalizing this other with
  | nil => exact (hthis.left other).append (hother.right this')
  | left _ ih =>
    obtain ⟨t, hfirst, hrest⟩ := hthis.split
    exact (hfirst.left other).append (ih hrest hother)
  | right _ ih =>
    obtain ⟨t, hfirst, hrest⟩ := hother.split
    exact (hfirst.right this).append (ih hthis hrest)

/-- Draws from two streams are draws from each. -/
theorem gives_select (h : C.Gives (C.select this other) zs s) :
    ∃ this' other' xs ys, s = C.select this' other' ∧ C.Gives this xs this' ∧
      C.Gives other ys other' ∧ Interleaves xs ys zs := by
  generalize hstream : C.select this other = stream at h
  induction h generalizing this other with
  | nil => exact ⟨this, other, [], [], hstream.symm, .nil _, .nil _, .nil⟩
  | @draw _ _ _ x _ hdraw _ ih =>
    subst hstream
    rcases C.draws_select.mp hdraw with ⟨this₁, hpart, rfl⟩ | ⟨other₁, hpart, rfl⟩
    · obtain ⟨this', other', xs, ys, rfl, hthis, hother, hzs⟩ := ih rfl
      refine ⟨this', other', _, ys, rfl, .draw hpart hthis, hother, ?_⟩
      cases x with
      | none => exact hzs
      | some x => exact hzs.left
    · obtain ⟨this', other', xs, ys, rfl, hthis, hother, hzs⟩ := ih rfl
      refine ⟨this', other', xs, _, rfl, hthis, .draw hpart hother, ?_⟩
      cases x with
      | none => exact hzs
      | some x => exact hzs.right

theorem Gives.chainFirst (h : C.Gives first xs first') (second : C.Stream α) :
    C.Gives (C.chain first second) xs (C.chain first' second) := by
  induction h with
  | nil => exact .nil _
  | draw hdraw _ ih => exact .draw (C.draws_chain.mpr (Or.inl ⟨_, hdraw, rfl⟩)) ih

theorem Gives.chainSecond (hended : C.Ended first) (h : C.Gives second xs second') :
    C.Gives (C.chain first second) xs (C.chain first second') := by
  induction h with
  | nil => exact .nil _
  | draw hdraw _ ih => exact .draw (C.draws_chain.mpr (Or.inr ⟨hended, _, hdraw, rfl⟩)) ih

/-- Draws from a chain are draws from the first stream, and then from the second if the first has
ended. -/
theorem gives_chain (h : C.Gives (C.chain first second) zs s) :
    ∃ first' second' xs ys, s = C.chain first' second' ∧ C.Gives first xs first' ∧
      C.Gives second ys second' ∧ zs = xs ++ ys ∧
      (C.Ended first' ∨ ys = [] ∧ second' = second) := by
  generalize hstream : C.chain first second = stream at h
  induction h generalizing first second with
  | nil => exact ⟨first, second, [], [], hstream.symm, .nil _, .nil _, rfl, Or.inr ⟨rfl, rfl⟩⟩
  | draw hdraw _ ih =>
    subst hstream
    rcases C.draws_chain.mp hdraw with ⟨first₁, hpart, rfl⟩ | ⟨hended, second₁, hpart, rfl⟩
    · obtain ⟨first', second', xs, ys, rfl, hfirst, hsecond, rfl, hwait⟩ := ih rfl
      exact ⟨first', second', _, ys, rfl, .draw hpart hfirst, hsecond,
        (List.append_assoc _ _ _).symm, hwait⟩
    · -- the first stream has ended, and no more is drawn from it
      obtain ⟨first', second', xs, ys, rfl, hfirst, hsecond, rfl, -⟩ := ih rfl
      obtain ⟨rfl, rfl⟩ := hfirst.of_ended hended
      exact ⟨first', second', [], _, rfl, .nil _, .draw hpart hsecond, rfl, Or.inl hended⟩

theorem filterMap_drawn (f : α → Option β) (x : Option α) (xs : List α) :
    (x.toList ++ xs).filterMap f = (x.bind f).toList ++ xs.filterMap f := by
  cases x with
  | none => rfl
  | some x => cases hx : f x <;> simp [hx]

theorem Gives.filterMap (h : C.Gives s xs s') (f : α → Option β) :
    C.Gives (C.filterMap s f) (xs.filterMap f) (C.filterMap s' f) := by
  induction h with
  | nil => exact .nil _
  | draw hdraw _ ih =>
    rw [filterMap_drawn]
    exact .draw (C.draws_filterMap.mpr ⟨_, _, hdraw, rfl, rfl⟩) ih

theorem gives_filterMap {f : α → Option β} {t : C.Stream β} {zs : List β}
    (h : C.Gives (C.filterMap s f) zs t) :
    ∃ xs s', C.Gives s xs s' ∧ zs = xs.filterMap f ∧ t = C.filterMap s' f := by
  generalize hstream : C.filterMap s f = stream at h
  induction h generalizing s with
  | nil => exact ⟨[], s, .nil s, rfl, hstream.symm⟩
  | draw hdraw _ ih =>
    subst hstream
    obtain ⟨x, s₁, hpart, rfl, rfl⟩ := C.draws_filterMap.mp hdraw
    obtain ⟨xs, s', hrest, rfl, rfl⟩ := ih rfl
    exact ⟨_, s', .draw hpart hrest, (filterMap_drawn f x xs).symm, rfl⟩

/-- A source gives its items. -/
theorem gives_source (xs rest : List α) :
    C.Gives (C.source (xs ++ rest) true) xs (C.source rest true) := by
  induction xs with
  | nil => exact .nil _
  | cons x xs ih =>
    exact .draw (x := some x) (C.draws_source.mpr ⟨rfl, Or.inl ⟨x, xs ++ rest, rfl, rfl, rfl⟩⟩) ih

/-- And then its end. -/
theorem remaining_source (items : List α) : C.Remaining (C.source items true) items := by
  have hitems := gives_source (C := C) items []
  have hend : C.Gives (C.source ([] : List α) true) [] (C.source [] false) :=
    .draw (x := none) (C.draws_source.mpr ⟨rfl, Or.inr ⟨rfl, rfl, rfl⟩⟩) (.nil _)
  have hall := hitems.append hend
  rw [List.append_nil] at hall
  exact ⟨_, hall, C.ended_source.mpr rfl⟩

theorem source_gives {items : List α} (h : C.Gives (C.source items true) zs s) :
    ∃ rest, items = zs ++ rest ∧
      (s = C.source rest true ∨ rest = [] ∧ s = C.source [] false) := by
  generalize hstream : C.source items true = stream at h
  induction h generalizing items with
  | nil => exact ⟨items, rfl, Or.inl hstream.symm⟩
  | draw hdraw hs ih =>
    subst hstream
    rcases C.draws_source.mp hdraw with ⟨-, ⟨a, rest, rfl, rfl, rfl⟩ | ⟨rfl, rfl, rfl⟩⟩
    · obtain ⟨rest', rfl, hend⟩ := ih rfl
      exact ⟨rest', rfl, hend⟩
    · obtain ⟨rfl, rfl⟩ := hs.of_ended (C.ended_source.mpr rfl)
      exact ⟨[], rfl, Or.inr ⟨rfl, rfl⟩⟩

end Runs

/-! ### Streams that give the same -/

section Bisimulations

/-- Related streams have related draws, and end together. -/
structure Bisimulation (C : Combinators) (R : C.Stream α → C.Stream α → Prop) : Prop where
  forth : ∀ {s t x s'}, R s t → C.Draws s x s' → ∃ t', C.Draws t x t' ∧ R s' t'
  back : ∀ {s t x t'}, R s t → C.Draws t x t' → ∃ s', C.Draws s x s' ∧ R s' t'
  ended : ∀ {s t}, R s t → (C.Ended s ↔ C.Ended t)

variable {R : C.Stream α → C.Stream α → Prop} {s s' t t' : C.Stream α} {xs : List α}

theorem Bisimulation.gives_forth (hR : C.Bisimulation R) (h : R s t) (hs : C.Gives s xs s') :
    ∃ t', C.Gives t xs t' ∧ R s' t' := by
  induction hs generalizing t with
  | nil => exact ⟨t, .nil t, h⟩
  | draw hdraw _ ih =>
    obtain ⟨t₁, hdraw', h₁⟩ := hR.forth h hdraw
    obtain ⟨t', ht, h'⟩ := ih h₁
    exact ⟨t', .draw hdraw' ht, h'⟩

theorem Bisimulation.gives_back (hR : C.Bisimulation R) (h : R s t) (ht : C.Gives t xs t') :
    ∃ s', C.Gives s xs s' ∧ R s' t' := by
  induction ht generalizing s with
  | nil => exact ⟨s, .nil s, h⟩
  | draw hdraw _ ih =>
    obtain ⟨s₁, hdraw', h₁⟩ := hR.back h hdraw
    obtain ⟨s', hs, h'⟩ := ih h₁
    exact ⟨s', .draw hdraw' hs, h'⟩

theorem Bisimulation.behaviour_eq (hR : C.Bisimulation R) (h : R s t) :
    behaviour s = behaviour t := by
  ext ⟨zs, done⟩
  constructor
  · rintro ⟨s', hs, hdone⟩
    obtain ⟨t', ht, h'⟩ := hR.gives_forth h hs
    exact ⟨t', ht, fun hd => (hR.ended h').mp (hdone hd)⟩
  · rintro ⟨t', ht, hdone⟩
    obtain ⟨s', hs, h'⟩ := hR.gives_back h ht
    exact ⟨s', hs, fun hd => (hR.ended h').mpr (hdone hd)⟩

theorem Bisimulation.live (hR : C.Bisimulation R) (h : R s t) (ht : C.Live t) : C.Live s := by
  intro given s' hs
  obtain ⟨t', hgives, h'⟩ := hR.gives_forth h hs
  obtain ⟨rest, last, hrest, hended⟩ := ht given t' hgives
  obtain ⟨last', hrest', hlast⟩ := hR.gives_back h' hrest
  exact ⟨rest, last', hrest', (hR.ended hlast).mpr hended⟩

/-- The first of many streams, beside the others. -/
theorem bisimulation_selectAll : C.Bisimulation fun s t : C.Stream α =>
    ∃ part parts, s = C.selectAll (part :: parts) ∧ t = C.select part (C.selectAll parts) := by
  refine ⟨?_, ?_, ?_⟩
  · rintro _ _ x s' ⟨part, parts, rfl, rfl⟩ hdraw
    obtain ⟨i, p, p', hi, hpart, rfl⟩ := C.draws_selectAll.mp hdraw
    cases i with
    | zero =>
      obtain rfl := Option.some.inj hi
      exact ⟨_, C.draws_select.mpr (Or.inl ⟨p', hpart, rfl⟩), p', parts, rfl, rfl⟩
    | succ i =>
      exact ⟨_, C.draws_select.mpr (Or.inr ⟨_, C.draws_selectAll.mpr ⟨i, p, p', hi, hpart, rfl⟩,
        rfl⟩), part, parts.set i p', rfl, rfl⟩
  · rintro _ _ x t' ⟨part, parts, rfl, rfl⟩ hdraw
    rcases C.draws_select.mp hdraw with ⟨p', hpart, rfl⟩ | ⟨rest, hrest, rfl⟩
    · exact ⟨_, C.draws_selectAll.mpr ⟨0, part, p', rfl, hpart, rfl⟩, p', parts, rfl, rfl⟩
    · obtain ⟨i, p, p', hi, hpart, rfl⟩ := C.draws_selectAll.mp hrest
      exact ⟨_, C.draws_selectAll.mpr ⟨i + 1, p, p', hi, hpart, rfl⟩, part, parts.set i p', rfl,
        rfl⟩
  · rintro _ _ ⟨part, parts, rfl, rfl⟩
    rw [C.ended_selectAll, C.ended_select, C.ended_selectAll, List.forall_mem_cons]

/-- The first of many streams, before the others. -/
theorem bisimulation_flatten : C.Bisimulation fun s t : C.Stream α =>
    ∃ part parts, s = C.flatten (part :: parts) ∧ t = C.chain part (C.flatten parts) := by
  refine ⟨?_, ?_, ?_⟩
  · rintro _ _ x s' ⟨part, parts, rfl, rfl⟩ hdraw
    obtain ⟨i, p, p', hi, hbefore, hpart, rfl⟩ := C.draws_flatten.mp hdraw
    cases i with
    | zero =>
      obtain rfl := Option.some.inj hi
      exact ⟨_, C.draws_chain.mpr (Or.inl ⟨p', hpart, rfl⟩), p', parts, rfl, rfl⟩
    | succ i =>
      rw [List.take_succ_cons, List.forall_mem_cons] at hbefore
      have hrest := C.draws_flatten.mpr ⟨i, p, p', hi, hbefore.2, hpart, rfl⟩
      exact ⟨_, C.draws_chain.mpr (Or.inr ⟨hbefore.1, _, hrest, rfl⟩), part, parts.set i p', rfl,
        rfl⟩
  · rintro _ _ x t' ⟨part, parts, rfl, rfl⟩ hdraw
    rcases C.draws_chain.mp hdraw with ⟨p', hpart, rfl⟩ | ⟨hended, rest, hrest, rfl⟩
    · exact ⟨_, C.draws_flatten.mpr ⟨0, part, p', rfl, by simp, hpart, rfl⟩, p', parts, rfl, rfl⟩
    · obtain ⟨i, p, p', hi, hbefore, hpart, rfl⟩ := C.draws_flatten.mp hrest
      refine ⟨_, C.draws_flatten.mpr ⟨i + 1, p, p', hi, ?_, hpart, rfl⟩, part, parts.set i p', rfl,
        rfl⟩
      rw [List.take_succ_cons, List.forall_mem_cons]
      exact ⟨hended, hbefore⟩
  · rintro _ _ ⟨part, parts, rfl, rfl⟩
    rw [C.ended_flatten, C.ended_chain, C.ended_flatten, List.forall_mem_cons]

end Bisimulations

/-! ### Behaviours -/

section Behaviours

variable (this other first second stream : C.Stream α)

theorem behaviour_source (items : List α) :
    behaviour (C.source items true) = .of items := by
  ext ⟨zs, done⟩
  constructor
  · rintro ⟨s, hgives, hdone⟩
    obtain ⟨rest, rfl, hend⟩ := source_gives hgives
    refine ⟨List.prefix_append _ _, fun hd => ?_⟩
    rcases hend with rfl | ⟨rfl, -⟩
    · exact absurd (C.ended_source.mp (hdone hd)) (by simp)
    · exact (List.append_nil _).symm
  · rintro ⟨⟨rest, rfl⟩, hdone⟩
    cases done with
    | false => exact ⟨_, gives_source zs rest, by simp⟩
    | true =>
      obtain rfl : rest = [] := List.append_right_eq_self.mp (hdone rfl).symm
      obtain ⟨last, hgives, hended⟩ := remaining_source (C := C) (zs ++ [])
      rw [List.append_nil] at hgives ⊢
      exact ⟨last, hgives, fun _ => hended⟩

/-- A stream that has ended. -/
theorem behaviour_of_ended (h : C.Ended stream) : behaviour stream = .finished := by
  ext ⟨zs, done⟩
  constructor
  · rintro ⟨s, hgives, -⟩
    obtain ⟨rfl, rfl⟩ := hgives.of_ended h
    exact ⟨List.prefix_rfl, fun _ => rfl⟩
  · rintro ⟨hzs, -⟩
    obtain rfl := List.prefix_nil.mp hzs
    exact ⟨stream, .nil _, fun _ => h⟩

theorem behaviour_select :
    behaviour (C.select this other) = (behaviour this).interleave (behaviour other) := by
  ext ⟨zs, done⟩
  constructor
  · rintro ⟨s, hgives, hdone⟩
    obtain ⟨this', other', xs, ys, rfl, hthis, hother, hzs⟩ := gives_select hgives
    have hboth : done = true → C.Ended this' ∧ C.Ended other' := fun hd =>
      C.ended_select.mp (hdone hd)
    exact ⟨(xs, done), ⟨this', hthis, fun hd => (hboth hd).1⟩, (ys, done),
      ⟨other', hother, fun hd => (hboth hd).2⟩, hzs, (Bool.and_self _).symm⟩
  · rintro ⟨⟨xs, p⟩, ⟨this', hthis, hp⟩, ⟨ys, q⟩, ⟨other', hother, hq⟩, hzs, rfl⟩
    refine ⟨_, hthis.interleaved hother hzs, fun hd => ?_⟩
    obtain ⟨rfl, rfl⟩ := Bool.and_eq_true_iff.mp hd
    exact C.ended_select.mpr ⟨hp rfl, hq rfl⟩

theorem behaviour_chain :
    behaviour (C.chain first second) = (behaviour first).andThen (behaviour second) := by
  ext ⟨zs, done⟩
  constructor
  · rintro ⟨s, hgives, hdone⟩
    obtain ⟨first', second', xs, ys, rfl, hfirst, hsecond, rfl, hwait⟩ := gives_chain hgives
    by_cases hended : C.Ended first'
    · exact Or.inr ⟨xs, ⟨first', hfirst, fun _ => hended⟩, (ys, done),
        ⟨second', hsecond, fun hd => (C.ended_chain.mp (hdone hd)).2⟩, rfl⟩
    · -- nothing has been drawn from the second stream
      obtain ⟨rfl, rfl⟩ := hwait.resolve_left hended
      have hopen : done = false := by
        by_contra hd
        exact hended (C.ended_chain.mp (hdone (by simpa using hd))).1
      refine Or.inl ⟨hopen, first', ?_, fun hd => absurd (hopen.symm.trans hd) (by simp)⟩
      rwa [List.append_nil]
  · rintro (⟨hopen, first', hfirst, -⟩ | ⟨xs, ⟨first', hfirst, hended⟩, ⟨ys, done'⟩,
      ⟨second', hsecond, hdone⟩, heq⟩)
    · exact ⟨_, hfirst.chainFirst second, fun hd => absurd (hopen.symm.trans hd) (by simp)⟩
    · obtain ⟨rfl, rfl⟩ := Prod.mk.inj heq
      exact ⟨_, (hfirst.chainFirst second).append (hsecond.chainSecond (hended rfl)),
        fun hd => C.ended_chain.mpr ⟨hended rfl, hdone hd⟩⟩

theorem behaviour_filterMap (f : α → Option β) :
    behaviour (C.filterMap stream f) = (behaviour stream).filterMap f := by
  ext ⟨zs, done⟩
  constructor
  · rintro ⟨t, hgives, hdone⟩
    obtain ⟨xs, s, hinner, rfl, rfl⟩ := gives_filterMap hgives
    exact ⟨(xs, done), ⟨s, hinner, fun hd => C.ended_filterMap.mp (hdone hd)⟩, rfl⟩
  · rintro ⟨⟨xs, done'⟩, ⟨s, hgives, hdone⟩, heq⟩
    obtain ⟨rfl, rfl⟩ := Prod.mk.inj heq
    exact ⟨_, hgives.filterMap f, fun hd => C.ended_filterMap.mpr (hdone hd)⟩

theorem behaviour_selectAll (streams : List (C.Stream α)) :
    behaviour (C.selectAll streams) = (streams.map behaviour).foldr .interleave .finished := by
  induction streams with
  | nil => exact behaviour_of_ended _ (C.ended_selectAll.mpr (by simp))
  | cons part parts ih =>
    rw [bisimulation_selectAll.behaviour_eq ⟨part, parts, rfl, rfl⟩, behaviour_select, ih]
    rfl

theorem behaviour_flatten (streams : List (C.Stream α)) :
    behaviour (C.flatten streams) = (streams.map behaviour).foldr .andThen .finished := by
  induction streams with
  | nil => exact behaviour_of_ended _ (C.ended_flatten.mpr (by simp))
  | cons part parts ih =>
    rw [bisimulation_flatten.behaviour_eq ⟨part, parts, rfl, rfl⟩, behaviour_chain, ih]
    rfl

end Behaviours

/-! ### Streams that can be drawn to their end -/

section Lives

variable {this other first second stream : C.Stream α}

theorem live_of_ended (h : C.Ended stream) : C.Live stream := by
  intro given s hgives
  obtain ⟨-, rfl⟩ := hgives.of_ended h
  exact ⟨[], s, .nil s, h⟩

theorem live_source (items : List α) : C.Live (C.source items true) := by
  intro given s hgives
  obtain ⟨rest, -, rfl | ⟨-, rfl⟩⟩ := source_gives hgives
  · exact ⟨rest, remaining_source rest⟩
  · exact ⟨[], _, .nil _, C.ended_source.mpr rfl⟩

theorem live_select (hthis : C.Live this) (hother : C.Live other) :
    C.Live (C.select this other) := by
  intro given s hgives
  obtain ⟨this', other', xs, ys, rfl, hxs, hys, -⟩ := gives_select hgives
  obtain ⟨rest, last, hrest, hended⟩ := hthis xs this' hxs
  obtain ⟨rest', last', hrest', hended'⟩ := hother ys other' hys
  exact ⟨rest ++ rest', _, (hrest.left other').append (hrest'.right last),
    C.ended_select.mpr ⟨hended, hended'⟩⟩

theorem live_chain (hfirst : C.Live first) (hsecond : C.Live second) :
    C.Live (C.chain first second) := by
  intro given s hgives
  obtain ⟨first', second', xs, ys, rfl, hxs, hys, -, -⟩ := gives_chain hgives
  obtain ⟨rest, last, hrest, hended⟩ := hfirst xs first' hxs
  obtain ⟨rest', last', hrest', hended'⟩ := hsecond ys second' hys
  exact ⟨rest ++ rest', _, (hrest.chainFirst second').append (hrest'.chainSecond hended),
    C.ended_chain.mpr ⟨hended, hended'⟩⟩

theorem live_filterMap (hstream : C.Live stream) (f : α → Option β) :
    C.Live (C.filterMap stream f) := by
  intro given t hgives
  obtain ⟨xs, s, hxs, -, rfl⟩ := gives_filterMap hgives
  obtain ⟨rest, last, hrest, hended⟩ := hstream xs s hxs
  exact ⟨_, _, hrest.filterMap f, C.ended_filterMap.mpr hended⟩

theorem live_selectAll {streams : List (C.Stream α)} (h : ∀ part ∈ streams, C.Live part) :
    C.Live (C.selectAll streams) := by
  induction streams with
  | nil => exact live_of_ended (C.ended_selectAll.mpr (by simp))
  | cons part parts ih =>
    obtain ⟨hpart, hparts⟩ := List.forall_mem_cons.mp h
    exact bisimulation_selectAll.live ⟨part, parts, rfl, rfl⟩ (live_select hpart (ih hparts))

theorem live_flatten {streams : List (C.Stream α)} (h : ∀ part ∈ streams, C.Live part) :
    C.Live (C.flatten streams) := by
  induction streams with
  | nil => exact live_of_ended (C.ended_flatten.mpr (by simp))
  | cons part parts ih =>
    obtain ⟨hpart, hparts⟩ := List.forall_mem_cons.mp h
    exact bisimulation_flatten.live ⟨part, parts, rfl, rfl⟩ (live_chain hpart (ih hparts))

end Lives

end Combinators

end ArtemisLight
