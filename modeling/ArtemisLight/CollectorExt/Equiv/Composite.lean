import ArtemisLight.CollectorExt.Composite
import ArtemisLight.Lib.Stream

/-!
# What a composite collector gives

The meaning of a composite is computed from what its sources answer: the error that subscribing it
ends in, or all that its stream can have given by any moment.  Subscribing and drawing from the
stream realizes exactly this.
-/

namespace ArtemisLight

mutual

/-- What a composite means. -/
def Composite.meaning : {E : Type} → Composite E → Except Error (Behaviour E)
  | E, @Composite.source κ _ _ collector =>
    (Collector.subscribe collector : Except Error (List E) × κ).1.map .of
  | _, .merge this other => do
    let A ← this.meaning
    let B ← other.meaning
    return A.interleave B
  | _, .mergeAll sources =>
    if sources.isEmpty then .error "merge_all has no sources; nothing to subscribe to"
    else sources.meanings.map (·.foldr .interleave .finished)
  | _, .chain first second => do
    let A ← first.meaning
    let B ← second.meaning
    return A.andThen B
  | _, .chainAll sources =>
    if sources.isEmpty then .error "chain_all has no sources; nothing to subscribe to"
    else sources.meanings.map (·.foldr .andThen .finished)
  | _, .fallback this other =>
    match this.meaning with
    | .ok A => .ok A
    | .error _ => other.meaning
  | _, .fallbackAll sources =>
    sources.firstMeaning "fallback_all has no sources; nothing to subscribe to"
  | _, .filterMap collector f => collector.meaning.map (.filterMap f)

/-- The meanings of all sources, or the first error. -/
def Sources.meanings : {E : Type} → Sources E → Except Error (List (Behaviour E))
  | _, .nil => .ok []
  | _, .cons source sources => do
    let A ← source.meaning
    let As ← sources.meanings
    return A :: As

/-- The meaning of the first source that has one, or the last error. -/
def Sources.firstMeaning (lastErr : Error) : {E : Type} → Sources E → Except Error (Behaviour E)
  | _, .nil => .error lastErr
  | _, .cons source sources =>
    match source.meaning with
    | .ok A => .ok A
    | .error e => sources.firstMeaning e

end

open Combinators (behaviour)

mutual

theorem Composite.subscribe_meaning (C : Combinators) : {E : Type} → (c : Composite E) →
    (c.subscribe C).1.map behaviour = c.meaning
  | E, @Composite.source κ _ _ collector => by
    unfold Composite.subscribe Composite.meaning
    rcases (Collector.subscribe collector : Except Error (List E) × κ) with ⟨_ | items, collector'⟩
    · rfl
    · exact congrArg Except.ok (Combinators.behaviour_source items)
  | _, .merge this other => by
    have ihthis := this.subscribe_meaning C
    have ihother := other.subscribe_meaning C
    unfold Composite.subscribe Composite.meaning
    rw [← ihthis, ← ihother]
    rcases this.subscribe C with ⟨_ | thisStream, this'⟩
    · rfl
    · rcases other.subscribe C with ⟨_ | otherStream, other'⟩
      · rfl
      · exact congrArg Except.ok (Combinators.behaviour_select thisStream otherStream)
  | _, .mergeAll sources => by
    have ih := sources.subscribeEach_meaning C
    unfold Composite.subscribe Composite.meaning
    split
    · rfl
    · rw [← ih]
      rcases sources.subscribeEach C with ⟨_ | streams, sources'⟩
      · rfl
      · exact congrArg Except.ok (Combinators.behaviour_selectAll streams)
  | _, .chain first second => by
    have ihfirst := first.subscribe_meaning C
    have ihsecond := second.subscribe_meaning C
    unfold Composite.subscribe Composite.meaning
    rw [← ihfirst, ← ihsecond]
    rcases first.subscribe C with ⟨_ | firstStream, first'⟩
    · rfl
    · rcases second.subscribe C with ⟨_ | secondStream, second'⟩
      · rfl
      · exact congrArg Except.ok (Combinators.behaviour_chain firstStream secondStream)
  | _, .chainAll sources => by
    have ih := sources.subscribeEach_meaning C
    unfold Composite.subscribe Composite.meaning
    split
    · rfl
    · rw [← ih]
      rcases sources.subscribeEach C with ⟨_ | streams, sources'⟩
      · rfl
      · exact congrArg Except.ok (Combinators.behaviour_flatten streams)
  | _, .fallback this other => by
    have ihthis := this.subscribe_meaning C
    have ihother := other.subscribe_meaning C
    unfold Composite.subscribe Composite.meaning
    rw [← ihthis, ← ihother]
    -- the other source is subscribed only if this one fails
    rcases this.subscribe C with ⟨_ | stream, this'⟩
    · rfl
    · rfl
  | _, .fallbackAll sources => by
    have ih := sources.subscribeFirst_meaning C
      "fallback_all has no sources; nothing to subscribe to"
    unfold Composite.subscribe Composite.meaning
    exact ih
  | _, .filterMap collector f => by
    have ih := collector.subscribe_meaning C
    unfold Composite.subscribe Composite.meaning
    rw [← ih]
    rcases collector.subscribe C with ⟨_ | stream, collector'⟩
    · rfl
    · exact congrArg Except.ok (Combinators.behaviour_filterMap stream f)

theorem Sources.subscribeEach_meaning (C : Combinators) : {E : Type} → (sources : Sources E) →
    (sources.subscribeEach C).1.map (List.map behaviour) = sources.meanings
  | _, .nil => rfl
  | _, .cons source sources => by
    have ihsource := source.subscribe_meaning C
    have ihsources := sources.subscribeEach_meaning C
    unfold Sources.subscribeEach Sources.meanings
    rw [← ihsource, ← ihsources]
    rcases source.subscribe C with ⟨_ | stream, source'⟩
    · rfl
    · rcases sources.subscribeEach C with ⟨_ | streams, sources'⟩
      · rfl
      · rfl

theorem Sources.subscribeFirst_meaning (C : Combinators) (lastErr : Error) :
    {E : Type} → (sources : Sources E) →
      (sources.subscribeFirst C lastErr).1.map behaviour = sources.firstMeaning lastErr
  | _, .nil => rfl
  | _, .cons source sources => by
    have ihsource := source.subscribe_meaning C
    have ihsources := fun e => sources.subscribeFirst_meaning C e
    unfold Sources.subscribeFirst Sources.firstMeaning
    rw [← ihsource]
    rcases source.subscribe C with ⟨e | stream, source'⟩
    · exact ihsources e
    · rfl

end

/-- A collector whose subscribe always has the same answer. -/
structure Fixed (E : Type) where
  answer : Except Error (List E)

instance {E : Type} : Collector (Fixed E) E where
  subscribe collector := (collector.answer, collector)

mutual

/-- The events that a composite will have given when its stream ends, but for their order. -/
def Composite.kept : {E : Type} → Composite E → Except Error (List E)
  | E, @Composite.source κ _ _ collector =>
    (Collector.subscribe collector : Except Error (List E) × κ).1
  | _, .merge this other => do
    let l ← this.kept
    let l' ← other.kept
    return l ++ l'
  | _, .mergeAll sources =>
    if sources.isEmpty then .error "merge_all has no sources; nothing to subscribe to"
    else sources.keptEach.map List.flatten
  | _, .chain first second => do
    let l ← first.kept
    let l' ← second.kept
    return l ++ l'
  | _, .chainAll sources =>
    if sources.isEmpty then .error "chain_all has no sources; nothing to subscribe to"
    else sources.keptEach.map List.flatten
  | _, .fallback this other =>
    match this.kept with
    | .ok l => .ok l
    | .error _ => other.kept
  | _, .fallbackAll sources =>
    sources.keptFirst "fallback_all has no sources; nothing to subscribe to"
  | _, .filterMap collector f => collector.kept.map (List.filterMap f)

def Sources.keptEach : {E : Type} → Sources E → Except Error (List (List E))
  | _, .nil => .ok []
  | _, .cons source sources => do
    let l ← source.kept
    let ls ← sources.keptEach
    return l :: ls

def Sources.keptFirst (lastErr : Error) : {E : Type} → Sources E → Except Error (List E)
  | _, .nil => .error lastErr
  | _, .cons source sources =>
    match source.kept with
    | .ok l => .ok l
    | .error e => sources.keptFirst e

end

theorem Except.map_eq_ok {α β : Type*} {f : α → β} {m : Except Error α} {b : β}
    (h : m.map f = .ok b) : ∃ a, m = .ok a ∧ f a = b := by
  cases m with
  | error e => exact nomatch h
  | ok a => exact ⟨a, rfl, Except.ok.inj h⟩

/-- The same error, or values that are related. -/
def Agree {α β : Type} (R : α → β → Prop) : Except Error α → Except Error β → Prop
  | .ok a, .ok b => R a b
  | .error e, .error e' => e = e'
  | _, _ => False

namespace Agree

variable {α α' β β' γ γ' : Type} {R : α → β → Prop} {R' : α' → β' → Prop} {S : γ → γ' → Prop}
  {m : Except Error α} {k : Except Error β} {m' : Except Error α'} {k' : Except Error β'}

theorem map {f : α → γ} {g : β → γ'} (hS : ∀ a b, R a b → S (f a) (g b)) (h : Agree R m k) :
    Agree S (m.map f) (k.map g) := by
  cases m <;> cases k
  · exact h
  · exact h
  · exact h
  · exact hS _ _ h

theorem bind {f : α → α' → γ} {g : β → β' → γ'}
    (hS : ∀ a b a' b', R a b → R' a' b' → S (f a a') (g b b')) (h : Agree R m k)
    (h' : Agree R' m' k') :
    Agree S (do let a ← m; let a' ← m'; return f a a')
      (do let b ← k; let b' ← k'; return g b b') := by
  cases m <;> cases k
  · exact h
  · exact h.elim
  · exact h.elim
  · cases m' <;> cases k'
    · exact h'
    · exact h'.elim
    · exact h'.elim
    · exact hS _ _ _ _ h h'

end Agree

mutual

theorem Composite.meaning_conserves : {E : Type} → (c : Composite E) →
    Agree Behaviour.Conserves c.meaning c.kept
  | E, @Composite.source κ _ _ collector => by
    unfold Composite.meaning Composite.kept
    cases (Collector.subscribe collector : Except Error (List E) × κ).1 with
    | error e => rfl
    | ok items => exact Behaviour.conserves_of items
  | _, .merge this other => by
    unfold Composite.meaning Composite.kept
    exact .bind (fun _ _ _ _ hA hB => hA.interleave hB) this.meaning_conserves
      other.meaning_conserves
  | _, .mergeAll sources => by
    have ih := sources.meanings_conserve
    unfold Composite.meaning Composite.kept
    split
    · rfl
    · exact ih.map fun _ _ h => Behaviour.conserves_foldr Behaviour.Conserves.interleave h
  | _, .chain first second => by
    unfold Composite.meaning Composite.kept
    exact .bind (fun _ _ _ _ hA hB => hA.andThen hB) first.meaning_conserves
      second.meaning_conserves
  | _, .chainAll sources => by
    have ih := sources.meanings_conserve
    unfold Composite.meaning Composite.kept
    split
    · rfl
    · exact ih.map fun _ _ h => Behaviour.conserves_foldr Behaviour.Conserves.andThen h
  | _, .fallback this other => by
    have ihthis := this.meaning_conserves
    have ihother := other.meaning_conserves
    unfold Composite.meaning Composite.kept
    -- by induction meaning and kept events fail together
    cases hm : this.meaning <;> cases hk : this.kept <;> rw [hm, hk] at ihthis
    · exact ihother
    · exact ihthis.elim
    · exact ihthis.elim
    · exact ihthis
  | _, .fallbackAll sources => by
    unfold Composite.meaning Composite.kept
    exact sources.firstMeaning_conserves _
  | _, .filterMap collector f => by
    unfold Composite.meaning Composite.kept
    exact collector.meaning_conserves.map fun _ _ h => h.filterMap f

theorem Sources.meanings_conserve : {E : Type} → (sources : Sources E) →
    Agree (List.Forall₂ Behaviour.Conserves) sources.meanings sources.keptEach
  | _, .nil => .nil
  | _, .cons source sources => by
    unfold Sources.meanings Sources.keptEach
    exact .bind (fun _ _ _ _ hA hAs => .cons hA hAs) source.meaning_conserves
      sources.meanings_conserve

theorem Sources.firstMeaning_conserves (lastErr : Error) : {E : Type} → (sources : Sources E) →
    Agree Behaviour.Conserves (sources.firstMeaning lastErr) (sources.keptFirst lastErr)
  | _, .nil => rfl
  | _, .cons source sources => by
    have ihsource := source.meaning_conserves
    have ihsources := fun e => sources.firstMeaning_conserves e
    unfold Sources.firstMeaning Sources.keptFirst
    cases hm : source.meaning <;> cases hk : source.kept <;> rw [hm, hk] at ihsource
    · obtain rfl : _ = _ := ihsource
      exact ihsources _
    · exact ihsource.elim
    · exact ihsource.elim
    · exact ihsource

end

mutual

/-- Whatever has been drawn from the stream of a composite, it can be drawn to its end. -/
theorem Composite.live (C : Combinators) : {E : Type} → (c : Composite E) →
    ∀ stream, (c.subscribe C).1 = .ok stream → C.Live stream
  | E, @Composite.source κ _ _ collector => by
    intro stream h
    unfold Composite.subscribe at h
    obtain ⟨items, -, rfl⟩ := Except.map_eq_ok h
    exact Combinators.live_source items
  | _, .merge this other => by
    have ihthis := this.live C
    have ihother := other.live C
    intro stream h
    unfold Composite.subscribe at h
    -- `other` is subscribed only if `this` gives a stream
    rcases hthis : this.subscribe C with ⟨e | thisStream, this'⟩
    · rw [hthis] at h
      exact nomatch h
    · rw [hthis] at h ihthis
      obtain ⟨otherStream, hother, rfl⟩ := Except.map_eq_ok h
      exact Combinators.live_select (ihthis _ rfl) (ihother _ hother)
  | _, .mergeAll sources => by
    have ih := sources.lives C
    intro stream h
    unfold Composite.subscribe at h
    split at h
    · exact nomatch h
    · obtain ⟨streams, hstreams, rfl⟩ := Except.map_eq_ok h
      exact Combinators.live_selectAll (ih _ hstreams)
  | _, .chain first second => by
    have ihfirst := first.live C
    have ihsecond := second.live C
    intro stream h
    unfold Composite.subscribe at h
    rcases hfirst : first.subscribe C with ⟨e | firstStream, first'⟩
    · rw [hfirst] at h
      exact nomatch h
    · rw [hfirst] at h ihfirst
      obtain ⟨secondStream, hsecond, rfl⟩ := Except.map_eq_ok h
      exact Combinators.live_chain (ihfirst _ rfl) (ihsecond _ hsecond)
  | _, .chainAll sources => by
    have ih := sources.lives C
    intro stream h
    unfold Composite.subscribe at h
    split at h
    · exact nomatch h
    · obtain ⟨streams, hstreams, rfl⟩ := Except.map_eq_ok h
      exact Combinators.live_flatten (ih _ hstreams)
  | _, .fallback this other => by
    have ihthis := this.live C
    have ihother := other.live C
    intro stream h
    unfold Composite.subscribe at h
    rcases hthis : this.subscribe C with ⟨e | thisStream, this'⟩
    · rw [hthis] at h
      exact ihother _ h
    · rw [hthis] at h ihthis
      exact ihthis _ h
  | _, .fallbackAll sources => by
    -- only the first source that gives a stream is drawn on
    have ih := sources.first_live C "fallback_all has no sources; nothing to subscribe to"
    intro stream h
    unfold Composite.subscribe at h
    exact ih _ h
  | _, .filterMap collector f => by
    have ih := collector.live C
    intro stream h
    unfold Composite.subscribe at h
    obtain ⟨inner, hinner, rfl⟩ := Except.map_eq_ok h
    exact Combinators.live_filterMap (ih _ hinner) f

theorem Sources.lives (C : Combinators) : {E : Type} → (sources : Sources E) →
    ∀ streams, (sources.subscribeEach C).1 = .ok streams → ∀ part ∈ streams, C.Live part
  | _, .nil => by
    intro streams h
    obtain rfl := Except.ok.inj h
    exact fun part hpart => absurd hpart (by simp)
  | _, .cons source sources => by
    have ihsource := source.live C
    have ihsources := sources.lives C
    intro streams h
    unfold Sources.subscribeEach at h
    rcases hsource : source.subscribe C with ⟨e | stream, source'⟩
    · rw [hsource] at h
      exact nomatch h
    · rw [hsource] at h ihsource
      obtain ⟨rest, hrest, rfl⟩ := Except.map_eq_ok h
      exact List.forall_mem_cons.mpr ⟨ihsource _ rfl, ihsources _ hrest⟩

theorem Sources.first_live (C : Combinators) (lastErr : Error) :
    {E : Type} → (sources : Sources E) →
      ∀ stream, (sources.subscribeFirst C lastErr).1 = .ok stream → C.Live stream
  | _, .nil => fun _ h => nomatch h
  | _, .cons source sources => by
    have ihsource := source.live C
    have ihsources := fun e => sources.first_live C e
    intro stream h
    unfold Sources.subscribeFirst at h
    rcases hsource : source.subscribe C with ⟨e | first, source'⟩
    · rw [hsource] at h
      exact ihsources e _ h
    · rw [hsource] at h ihsource
      exact ihsource _ h

end

end ArtemisLight
