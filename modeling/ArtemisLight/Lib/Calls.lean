import Mathlib.Data.List.Forall2

/-!
# Components in time

A component is called at some instant, takes its time, and replies.  `Calls` is a history of a
component: calls that do not overlap.  A layer is a component that makes calls of an inner one while
it is called; `Calls.expand` refines a history of the layer to the history of the inner component
that it makes.
-/

namespace ArtemisLight

/-- The time, and how much later than asked for the awaits to come will end. -/
structure Clock where
  now : Nat
  late : Nat → Nat

namespace Clock

/-- Sleep for a while. -/
def sleep (clock : Clock) (d : Nat) : Clock :=
  ⟨clock.now + d + clock.late 0, fun n => clock.late (n + 1)⟩

/-- Every await ends late by `d`. -/
def lateBy (d now : Nat) : Clock := ⟨now, fun _ => d⟩

/-- Sleep until an instant, which may have passed. -/
def sleepUntil (clock : Clock) (t : Nat) : Clock :=
  ⟨max clock.now t + clock.late 0, fun n => clock.late (n + 1)⟩

theorem le_sleep (clock : Clock) (d : Nat) : clock.now + d ≤ (clock.sleep d).now :=
  Nat.le_add_right _ _

theorem le_sleepUntil (clock : Clock) (t : Nat) :
    clock.now ≤ (clock.sleepUntil t).now ∧ t ≤ (clock.sleepUntil t).now :=
  ⟨Nat.le_add_right_of_le (Nat.le_max_left _ _), Nat.le_add_right_of_le (Nat.le_max_right _ _)⟩

end Clock

/-- A component of state `τ` that answers requests `α` by replies `β`. -/
class Timed (τ : Type*) (α : Type*) (β : outParam (Type*)) where
  call : τ → Clock → α → β × τ × Clock
  now_le : ∀ component clock request, clock.now ≤ (call component clock request).2.2.now

/-- A call that has been answered. -/
structure Handled (α β : Type*) where
  request : α
  start : Nat
  reply : β
  finish : Nat
  deriving DecidableEq

/-- A history of a component from an instant to another one: its state before and after the calls,
which do not overlap. -/
inductive Calls {τ α β : Type*} [Timed τ α β] (component : τ) (since : Nat) :
    List (Handled α β) → τ → Nat → Prop
  | nil : Calls component since [] component since
  /-- Time passes. -/
  | wait {calls : List (Handled α β)} {component' : τ} {now later : Nat}
      (before : Calls component since calls component' now) (le : now ≤ later) :
      Calls component since calls component' later
  | call {calls : List (Handled α β)} {component' component'' : τ} {clock clock' : Clock}
      {request : α} {reply : β} (before : Calls component since calls component' clock.now)
      (answer : Timed.call component' clock request = (reply, component'', clock')) :
      Calls component since (calls ++ [⟨request, clock.now, reply, clock'.now⟩]) component''
        clock'.now

namespace Calls

variable {τ σ α β γ δ : Type*} [Timed τ α β] [Timed σ γ δ] {component component' component'' : τ}
  {since now later : Nat} {calls calls' : List (Handled α β)}

/-- One call. -/
theorem single {clock clock' : Clock} {request : α} {reply : β}
    (answer : Timed.call component clock request = (reply, component', clock')) :
    Calls component clock.now [⟨request, clock.now, reply, clock'.now⟩] component' clock'.now :=
  .call .nil answer

theorem append (h : Calls component since calls component' now)
    (h' : Calls component' now calls' component'' later) :
    Calls component since (calls ++ calls') component'' later := by
  induction h' with
  | nil => rwa [List.append_nil]
  | wait _ le ih => exact ih.wait le
  | call _ answer ih =>
    rw [← List.append_assoc]
    exact ih.call answer

/-- The calls lie within the history, one after the other. -/
theorem ordered (h : Calls component since calls component' now) :
    since ≤ now ∧ (∀ c ∈ calls, since ≤ c.start ∧ c.start ≤ c.finish ∧ c.finish ≤ now) ∧
      calls.Pairwise fun c c' => c.finish ≤ c'.start := by
  induction h with
  | nil => exact ⟨Nat.le_refl _, by simp, List.Pairwise.nil⟩
  | wait _ le ih =>
    obtain ⟨hle, hmem, hpair⟩ := ih
    refine ⟨Nat.le_trans hle le, fun c hc => ?_, hpair⟩
    obtain ⟨hstart, hfinish, hnow⟩ := hmem c hc
    exact ⟨hstart, hfinish, Nat.le_trans hnow le⟩
  | @call calls component' component'' clock clock' request reply _ answer ih =>
    obtain ⟨hle, hmem, hpair⟩ := ih
    have hnow : clock.now ≤ clock'.now := by
      have := Timed.now_le component' clock request
      rwa [answer] at this
    refine ⟨Nat.le_trans hle hnow, fun c hc => ?_, ?_⟩
    · rcases List.mem_append.mp hc with hc | hc
      · exact ⟨(hmem c hc).1, (hmem c hc).2.1, Nat.le_trans (hmem c hc).2.2 hnow⟩
      · obtain rfl := List.mem_singleton.mp hc
        exact ⟨hle, hnow, Nat.le_refl _⟩
    · rw [List.pairwise_append]
      refine ⟨hpair, List.pairwise_singleton _ _, fun c hc c' hc' => ?_⟩
      obtain rfl := List.mem_singleton.mp hc'
      exact (hmem c hc).2.2

/-- The rule of layers.  If every call of the layer makes a history of the inner component that is
related to it by `P`, and preserves `I`, which speaks of the layer and of all that it has made so
far, then every history of the layer makes one of the inner component, part by part. -/
theorem expand (h : Calls component since calls component' now) (inner : τ → σ)
    (I : τ → List (Handled γ δ) → Prop) (P : Handled α β → List (Handled γ δ) → Prop)
    (hcall : ∀ layer made clock request reply layer' clock', I layer made →
      (∀ s ∈ made, s.start ≤ s.finish ∧ s.finish ≤ clock.now) →
      Timed.call layer clock request = (reply, layer', clock') →
        ∃ part, Calls (inner layer) clock.now part (inner layer') clock'.now ∧
          P ⟨request, clock.now, reply, clock'.now⟩ part ∧ I layer' (made ++ part))
    (hI : I component []) :
    ∃ parts, List.Forall₂ P calls parts ∧ I component' parts.flatten ∧
      Calls (inner component) since parts.flatten (inner component') now := by
  induction h with
  | nil => exact ⟨[], .nil, hI, .nil⟩
  | wait _ le ih =>
    obtain ⟨parts, hP, hI', hinner⟩ := ih
    exact ⟨parts, hP, hI', hinner.wait le⟩
  | call _ answer ih =>
    obtain ⟨parts, hP, hI', hinner⟩ := ih
    obtain ⟨part, hpart, hrel, hI''⟩ := hcall _ _ _ _ _ _ _ hI'
      (fun s hs => (hinner.ordered.2.1 s hs).2) answer
    refine ⟨parts ++ [part], List.rel_append hP (.cons hrel .nil), ?_, ?_⟩
    · rw [List.flatten_append, List.flatten_singleton]
      exact hI''
    · rw [List.flatten_append, List.flatten_singleton]
      exact hinner.append hpart

end Calls

/-! ### Layers over layers -/

section Through

variable {α β γ : Type*} {P : α → List β → Prop} {Q : β → List γ → Prop}

/-- What a call makes two layers further in. -/
def Through (P : α → List β → Prop) (Q : β → List γ → Prop) (c : α) (made : List γ) : Prop :=
  ∃ part parts, P c part ∧ List.Forall₂ Q part parts ∧ made = parts.flatten

/-- The parts that two layers make one after the other, by the calls of the outer one. -/
theorem forall₂_through {calls : List α} {parts : List (List β)} {parts' : List (List γ)}
    (hP : List.Forall₂ P calls parts) (hQ : List.Forall₂ Q parts.flatten parts') :
    ∃ groups, List.Forall₂ (Through P Q) calls groups ∧ groups.flatten = parts'.flatten := by
  induction hP generalizing parts' with
  | nil =>
    cases hQ
    exact ⟨[], .nil, rfl⟩
  | @cons c part calls parts hc _ ih =>
    rw [List.flatten_cons] at hQ
    have htake := List.forall₂_take_append parts' part parts.flatten hQ.flip
    have hdrop := List.forall₂_drop_append parts' part parts.flatten hQ.flip
    obtain ⟨groups, hgroups, hflatten⟩ := ih hdrop.flip
    refine ⟨_ :: groups, .cons ⟨part, _, hc, htake.flip, rfl⟩ hgroups, ?_⟩
    rw [List.flatten_cons, hflatten, ← List.flatten_append, List.take_append_drop]

end Through

end ArtemisLight
