import ArtemisLight.Persistence.Chain

/-!
# Chains that reorganise

A canonical chain evolves by turns: the next block is appended, or every block from some height on
is removed, whose replacements are then appended one by one.  `CanonicalChain.live` is what a live
stream reports of an evolution: a block's events at its height, and one retraction for each removed
event, in any order.
-/

namespace ArtemisLight

variable {E : Type}

/-- The canonical chain at one moment: the events of every block below `next`. -/
structure CanonicalChain (E : Type) where
  block : Nat → List E
  next : Nat
  /-- There are no blocks from `next` on. -/
  unfilled : ∀ k, next ≤ k → block k = []

/-- What may happen to a chain. -/
inductive Turn (E : Type) where
  /-- The next block, with its events. -/
  | extend (events : List E)
  /-- Every block from `key` on is removed.  The removed events are retracted at the heights
  `removed`, in this order. -/
  | reorg (key : Nat) (removed : List Nat)
  deriving DecidableEq

namespace CanonicalChain

theorem extend_unfilled (c : CanonicalChain E) (events : List E) (k : Nat) (hk : c.next + 1 ≤ k) :
    Function.update c.block c.next events k = [] := by
  rw [Function.update_of_ne (by omega)]
  exact c.unfilled k (by omega)

theorem truncate_unfilled (c : CanonicalChain E) (key k : Nat) (hk : min c.next key ≤ k) :
    Ledger.truncate c.block key k = [] := by
  unfold Ledger.truncate
  split
  · exact c.unfilled k (by omega)
  · rfl

def turn (c : CanonicalChain E) : Turn E → CanonicalChain E
  | .extend events => ⟨Function.update c.block c.next events, c.next + 1, c.extend_unfilled events⟩
  | .reorg key _ => ⟨Ledger.truncate c.block key, min c.next key, c.truncate_unfilled key⟩

def run (c : CanonicalChain E) (turns : List (Turn E)) : CanonicalChain E := turns.foldl turn c

/-- What a live stream reports of a turn. -/
def items (c : CanonicalChain E) : Turn E → List (Indexed BlockPosition E)
  | .extend events => asLive (events.map fun e => (⟨c.next⟩, e))
  | .reorg _ removed => removed.map fun k => .retract ⟨k⟩

/-- What a live stream reports of an evolution. -/
def live (c : CanonicalChain E) : List (Turn E) → List (Indexed BlockPosition E)
  | [] => []
  | turn :: turns => c.items turn ++ (c.turn turn).live turns

/-- The heights of the events from `key` on, one for each event. -/
def heights (c : CanonicalChain E) (key : Nat) : List Nat :=
  (chainEvents c.block key (c.next - 1)).map fun x => x.1.block

/-- Whether a reorg retracts each of the events it removes once. -/
def Reports (c : CanonicalChain E) : Turn E → Prop
  | .extend _ => True
  | .reorg key removed => removed.Perm (c.heights key)

/-- An evolution whose reorgs are reported event by event. -/
def Lawful (c : CanonicalChain E) : List (Turn E) → Prop
  | [] => True
  | turn :: turns => c.Reports turn ∧ (c.turn turn).Lawful turns

instance (c : CanonicalChain E) : (turn : Turn E) → Decidable (c.Reports turn)
  | .extend _ => inferInstanceAs (Decidable True)
  | .reorg key removed => inferInstanceAs (Decidable (removed.Perm (c.heights key)))

instance (c : CanonicalChain E) : (turns : List (Turn E)) → Decidable (c.Lawful turns)
  | [] => inferInstanceAs (Decidable True)
  | turn :: turns =>
    have := instDecidableLawful (c.turn turn) turns
    inferInstanceAs (Decidable (_ ∧ _))

variable {c : CanonicalChain E} {turns turns' : List (Turn E)}

theorem run_append : c.run (turns ++ turns') = (c.run turns).run turns' := List.foldl_append

theorem live_append : c.live (turns ++ turns') = c.live turns ++ (c.run turns).live turns' := by
  induction turns generalizing c with
  | nil => rfl
  | cons turn turns ih =>
    show c.items turn ++ (c.turn turn).live (turns ++ turns') = _
    rw [ih, ← List.append_assoc]
    rfl

theorem lawful_append :
    c.Lawful (turns ++ turns') ↔ c.Lawful turns ∧ (c.run turns).Lawful turns' := by
  induction turns generalizing c with
  | nil => exact (true_and _).symm ▸ Iff.rfl
  | cons turn turns ih => exact (and_congr_right fun _ => ih).trans and_assoc.symm

theorem live_concat (turn : Turn E) :
    c.live (turns ++ [turn]) = c.live turns ++ (c.run turns).items turn := by
  rw [live_append]
  simp [live]

theorem run_concat (turn : Turn E) : c.run (turns ++ [turn]) = (c.run turns).turn turn :=
  run_append

theorem block_ne_nil {k : Nat} (h : c.block k ≠ []) : k < c.next :=
  Nat.lt_of_not_le fun hle => h (c.unfilled k hle)

/-- The events of a live stream are those of the blocks appended. -/
theorem mem_live {position : BlockPosition} {event : E} (h : .event position event ∈ c.live turns) :
    ∃ done events rest, turns = done ++ .extend events :: rest ∧
      position = ⟨(c.run done).next⟩ ∧ event ∈ events := by
  induction turns generalizing c with
  | nil => exact absurd h (by simp [live])
  | cons turn turns ih =>
    rcases List.mem_append.mp h with h | h
    · cases turn with
      | extend events =>
        obtain ⟨x, hx, heq⟩ := List.mem_map.mp h
        obtain ⟨e, he, rfl⟩ := List.mem_map.mp hx
        obtain ⟨rfl, rfl⟩ := Indexed.event.inj heq
        exact ⟨[], events, turns, rfl, rfl, he⟩
      | reorg key removed =>
        obtain ⟨k, -, heq⟩ := List.mem_map.mp h
        exact absurd heq (by simp)
    · obtain ⟨done, events, rest, rfl, hpos, he⟩ := ih h
      exact ⟨turn :: done, events, rest, rfl, hpos, he⟩

theorem mem_live_of_extend {done rest : List (Turn E)} {events : List E} {event : E}
    (he : event ∈ events) :
    .event ⟨(c.run done).next⟩ event ∈ c.live (done ++ .extend events :: rest) := by
  rw [live_append]
  refine List.mem_append_right _ (List.mem_append_left _ ?_)
  exact List.mem_map.mpr ⟨_, List.mem_map.mpr ⟨event, he, rfl⟩, rfl⟩

/-- A height is retracted if its block is removed and has events. -/
theorem mem_heights {key k : Nat} : k ∈ c.heights key ↔ key ≤ k ∧ c.block k ≠ [] := by
  unfold heights
  rw [List.mem_map]
  constructor
  · rintro ⟨x, hx, rfl⟩
    have hx := mem_chainEvents.mp hx
    exact ⟨hx.1, List.ne_nil_of_mem hx.2.2⟩
  · rintro ⟨hle, hne⟩
    have := block_ne_nil hne
    obtain ⟨e, he⟩ := List.exists_mem_of_ne_nil _ hne
    exact ⟨(⟨k⟩, e), mem_chainEvents.mpr ⟨hle, by show k ≤ c.next - 1; omega, he⟩, rfl⟩

/-! ### Blocks that stay -/

/-- No reorg of the evolution reaches down to the height `k`. -/
def Stable (turns : List (Turn E)) (k : Nat) : Prop :=
  ∀ key removed, .reorg key removed ∈ turns → k < key

theorem Stable.of_cons {turn : Turn E} {k : Nat} (h : Stable (turn :: turns) k) : Stable turns k :=
  fun key removed hm => h key removed (List.mem_cons_of_mem _ hm)

/-- A block that no reorg reaches stays. -/
theorem run_block_of_stable {k : Nat} (hk : k < c.next) (hs : Stable turns k) :
    (c.run turns).block k = c.block k := by
  induction turns generalizing c with
  | nil => rfl
  | cons turn turns ih =>
    show ((c.turn turn).run turns).block k = _
    cases turn with
    | extend events =>
      rw [ih (Nat.lt_succ_of_lt hk) hs.of_cons]
      exact Function.update_of_ne (Nat.ne_of_lt hk) _ _
    | reorg key removed =>
      have hkey : k < key := hs key removed List.mem_cons_self
      rw [ih (Nat.lt_min.mpr ⟨hk, hkey⟩) hs.of_cons]
      exact if_pos hkey

end CanonicalChain

end ArtemisLight
