import ArtemisLight.Persistence.Persisted

/-!
# Sources that answer exactly, and the calls they get

`ExactSource events H` says of the collectors in `H` that a range query, if it does not fail,
returns the source's events of that range.  `Logged` is a collector that keeps a log of its range
queries.
-/

namespace ArtemisLight

variable {τ P E : Type}

/-- The events with sort keys `lo..=hi`, in order. -/
def eventsIn (events : Nat → List (P × E)) (lo hi : Nat) : List (P × E) :=
  (List.range' lo (hi + 1 - lo)).flatMap events

theorem eventsIn_of_lt {events : Nat → List (P × E)} {lo hi : Nat} (h : hi < lo) :
    eventsIn events lo hi = [] := by
  have : hi + 1 - lo = 0 := by omega
  simp [eventsIn, this]

/-- Adjacent ranges concatenate. -/
theorem eventsIn_append {events : Nat → List (P × E)} {lo mid hi : Nat} (h₁ : lo ≤ mid + 1)
    (h₂ : mid ≤ hi) :
    eventsIn events lo mid ++ eventsIn events (mid + 1) hi = eventsIn events lo hi := by
  unfold eventsIn
  rw [← List.flatMap_append]
  congr 1
  have h₃ : hi + 1 - lo = (mid + 1 - lo) + (hi + 1 - (mid + 1)) := by omega
  have h₄ : mid + 1 = lo + 1 * (mid + 1 - lo) := by omega
  rw [h₃, ← List.range'_append, ← h₄]

theorem mem_eventsIn {events : Nat → List (P × E)} {lo hi : Nat} {x : P × E} :
    x ∈ eventsIn events lo hi ↔ ∃ k, lo ≤ k ∧ k ≤ hi ∧ x ∈ events k := by
  simp only [eventsIn, List.mem_flatMap, List.mem_range'_1]
  constructor
  · rintro ⟨k, hk, hx⟩
    exact ⟨k, hk.1, by omega, hx⟩
  · rintro ⟨k, hlo, hhi, hx⟩
    exact ⟨k, ⟨hlo, by omega⟩, hx⟩

/-- A range query of a collector in `H` fails or returns exactly the events of its range. -/
structure ExactSource [Position P] [PersistableCollector τ P E] (events : Nat → List (P × E))
    (H : τ → Prop) : Prop where
  query_closed : ∀ c, H c → ∀ a b : P, H (PersistableCollector.queryRange (E := E) c a b).2
  query_exact : ∀ c, H c → ∀ (a b : P) stream c',
    PersistableCollector.queryRange c a b = (.ok stream, c') →
      stream = eventsIn events (Position.sortKey a) (Position.sortKey b)

/-! ### The log of range queries -/

/-- One range query: the sort keys of its bounds, and the error it failed with, if any. -/
structure Call where
  lo : Nat
  hi : Nat
  failure : Option Error
  deriving DecidableEq

/-- A failure that bisection does not answer. -/
def Call.Unsplittable (call : Call) : Prop :=
  ∃ e, call.failure = some e ∧ ¬ (call.lo < call.hi ∧ isResponseSizeError e)

/-- The windows of the calls that returned. -/
def succeeded (calls : List Call) : List (Nat × Nat) :=
  calls.filterMap fun call => if call.failure.isNone then some (call.lo, call.hi) else none

@[simp] theorem succeeded_append (calls calls' : List Call) :
    succeeded (calls ++ calls') = succeeded calls ++ succeeded calls' := List.filterMap_append

/-- A collector with the log of its range queries. -/
structure Logged (τ : Type) where
  inner : τ
  calls : List Call

variable [Position P] [PersistableCollector τ P E]

instance : PersistableCollector (Logged τ) P E where
  subscribeIndexed c :=
    let r := PersistableCollector.subscribeIndexed c.inner
    (r.1, { c with inner := r.2 })
  queryRange c a b :=
    let r := PersistableCollector.queryRange c.inner a b
    (r.1, ⟨r.2, c.calls ++ [⟨Position.sortKey a, Position.sortKey b,
      match r.1 with
      | .ok _ => none
      | .error e => some e⟩]⟩)
  tip c :=
    let r := PersistableCollector.tip E c.inner
    (r.1, { c with inner := r.2 })

end ArtemisLight
