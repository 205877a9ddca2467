/-!
# Types

What the engine, the collectors and the executors share.
-/

namespace ArtemisLight

/-- The rendered text of an `anyhow::Error`: its outermost context. -/
abbrev Error := String

/-- An executor of actions `A`, of state `τ`. -/
class Executor (τ A : Type) where
  execute : τ → A → Except Error Unit × τ

section Executors

variable {τ A : Type} [Executor τ A]

/-- The verdicts of an executor on actions submitted once each, in order, and its state after
them. -/
def executeAll (executor : τ) : List A → List (Except Error Unit) × τ
  | [] => ([], executor)
  | action :: actions =>
    let (verdict, executor) := Executor.execute executor action
    let (verdicts, executor) := executeAll executor actions
    (verdict :: verdicts, executor)

theorem executeAll_concat (executor : τ) (actions : List A) (action : A) :
    executeAll executor (actions ++ [action])
      = ((executeAll executor actions).1
          ++ [(Executor.execute (executeAll executor actions).2 action).1],
        (Executor.execute (executeAll executor actions).2 action).2) := by
  induction actions generalizing executor with
  | nil => rfl
  | cons a actions ih =>
    simp only [List.cons_append, executeAll]
    rw [ih]

end Executors

/-- A strategy of state `S`, from events `E` to actions `A`. -/
class Strategy (S E A : Type) where
  syncState : S → Except Error Unit × S
  processEvent : S → E → Except Error (List A) × S

section Strategies

variable {S E A : Type} [Strategy S E A]

/-- The actions of a strategy on some events, one after the other, and its state after them.  An
event whose processing fails yields none. -/
def processEvents (strategy : S) : List E → List A × S
  | [] => ([], strategy)
  | event :: events =>
    let r : Except Error (List A) × S := Strategy.processEvent strategy event
    let (actions, strategy) := processEvents r.2 events
    (r.1.toOption.getD [] ++ actions, strategy)

theorem processEvents_concat (strategy : S) (events : List E) (event : E) :
    (processEvents strategy (events ++ [event]) : List A × S)
      = ((processEvents strategy events).1 ++ ((Strategy.processEvent
          (processEvents (A := A) strategy events).2 event :
            Except Error (List A) × S).1.toOption.getD []),
        (Strategy.processEvent (processEvents (A := A) strategy events).2 event :
          Except Error (List A) × S).2) := by
  induction events generalizing strategy with
  | nil => simp [processEvents]
  | cons e events ih =>
    simp only [List.cons_append, processEvents]
    rw [ih]
    simp

/-- The state in which a strategy's task starts. -/
def syncedStrategy (E A : Type) [Strategy S E A] (strategy : S) : S :=
  (Strategy.syncState E A strategy : Except Error Unit × S).2

end Strategies

/-- A passive observer of events and actions, of state `ω`. -/
class Observer (ω E A : Type) where
  observeEvent : ω → E → ω
  observeAction : ω → A → ω

end ArtemisLight
