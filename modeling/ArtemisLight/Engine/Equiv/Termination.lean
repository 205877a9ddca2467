import ArtemisLight.Engine.Equiv.Rest
import Mathlib

/-!
# The consumers come to rest

An event is processed once by a strategy, and may lead to any number of actions, each of which is
executed once.  So the work that is left goes down lexicographically: first the events that the
strategies have not processed, then the actions that they have not sent, then what the executors and
the observers have not been given.
-/

namespace ArtemisLight

namespace Engine

variable {C : Channel} {S τ ω E A : Type}

/-! ### The work that is left -/

/-- One task of a list changes. -/
theorem sum_map_set {α : Type} (f : α → Nat) {l : List α} {i : Nat} {x : α} (x' : α)
    (hx : l[i]? = some x) : ((l.set i x').map f).sum + f x = (l.map f).sum + f x' := by
  induction l generalizing i with
  | nil => exact absurd hx (by simp)
  | cons y l ih =>
    cases i with
    | zero =>
      obtain rfl := Option.some.inj hx
      simp only [List.set_cons_zero, List.map_cons, List.sum_cons]
      omega
    | succ i =>
      have := ih hx
      simp only [List.set_cons_succ, List.map_cons, List.sum_cons]
      omega

/-! ### One step -/

section Steps

variable [Strategy S E A] [Executor τ A] [Observer ω E A] {eventCapacity actionCapacity : Nat}
  {strategies : List S} {executors : List τ} {observers : List ω} {h h' : List (Happening E A)}
  {engine engine' : Engine C S τ ω E A} {j k m : Nat}

/-- The acts of the consumers. -/
def Act.isConsumer : Act E → Bool
  | .strategy _ | .executor _ | .observer _ _ => true
  | _ => false

/-- A consumer takes a step. -/
def Consumes (engine' engine : Engine C S τ ω E A) : Prop :=
  ∃ act h, act.isConsumer = true ∧ engine.step act = some (h, engine')

/-- A consumer touches neither the phase nor the tokens. -/
theorem consumer_frame {act : Act E} (hact : act.isConsumer = true)
    (hstep : engine.step act = some (h', engine')) :
    engine'.phase = engine.phase ∧ engine'.root = engine.root := by
  unfold Engine.step at hstep
  rw [if_neg (phase_of_step hstep)] at hstep
  cases act with
  | strategy j =>
    obtain ⟨_, _, _, -, -, rfl⟩ := strategyStep_cases hstep
    exact ⟨rfl, rfl⟩
  | executor k =>
    obtain ⟨_, _, -, -, rfl⟩ := executorStep_cases hstep
    exact ⟨rfl, rfl⟩
  | observer m events =>
    obtain ⟨_, _, -, -, rfl⟩ := observerStep_cases hstep
    exact ⟨rfl, rfl⟩
  | _ => exact absurd hact (by simp [Act.isConsumer])

end Steps

end Engine

end ArtemisLight
