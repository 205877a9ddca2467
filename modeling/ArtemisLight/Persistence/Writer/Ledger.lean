import ArtemisLight.Persistence.Writer.Pipeline

/-!
# Ledgers

A `Ledger` is what the writers of a block subscription are for, without buffers, heads or flushes:
the events of each height as the source last reported them.  A retraction empties every height from
its own on; the first event of a re-emitted block does the same before it starts the block.  `next`
is the lowest height the live stream has not filled.
-/

namespace ArtemisLight

variable {E : Type}

/-- The events of a positioned list at one height, in order. -/
def eventsAt (l : List (BlockPosition × E)) (k : Nat) : List E :=
  (l.filter fun x => decide (x.1.block = k)).map Prod.snd

@[simp] theorem eventsAt_nil (k : Nat) : eventsAt ([] : List (BlockPosition × E)) k = [] := rfl

theorem eventsAt_append (l l' : List (BlockPosition × E)) (k : Nat) :
    eventsAt (l ++ l') k = eventsAt l k ++ eventsAt l' k := by
  simp [eventsAt]

theorem eventsAt_concat (l : List (BlockPosition × E)) (x : BlockPosition × E) (k : Nat) :
    eventsAt (l ++ [x]) k = if k = x.1.block then eventsAt l k ++ [x.2] else eventsAt l k := by
  rw [eventsAt_append]
  by_cases hk : k = x.1.block
  · simp [eventsAt, hk]
  · simp [eventsAt, hk, eq_comm]

theorem eventsAt_singleton (x : BlockPosition × E) (k : Nat) :
    eventsAt [x] k = if k = x.1.block then [x.2] else [] :=
  eventsAt_concat [] x k

theorem eventsAt_eq_nil {l : List (BlockPosition × E)} {k : Nat} (h : ∀ x ∈ l, x.1.block ≠ k) :
    eventsAt l k = [] := by
  unfold eventsAt
  rw [List.map_eq_nil_iff, List.filter_eq_nil_iff]
  intro x hx
  simpa using h x hx

/-- Events in order that start above a height have none at it. -/
theorem eventsAt_eq_nil_of_head {l : List (BlockPosition × E)} {k : Nat}
    (hsorted : l.Pairwise fun x y => x.1.block ≤ y.1.block)
    (hhead : ∀ x ∈ l.head?, k < x.1.block) : eventsAt l k = [] := by
  refine eventsAt_eq_nil fun y hy => ?_
  rcases l with _ | ⟨x, l⟩
  · exact absurd hy List.not_mem_nil
  · have hx := hhead x rfl
    rcases List.mem_cons.mp hy with rfl | hy
    · exact Nat.ne_of_gt hx
    · exact Nat.ne_of_gt (Nat.lt_of_lt_of_le hx (List.rel_of_pairwise_cons hsorted hy))

theorem mem_eventsAt {l : List (BlockPosition × E)} {k : Nat} {e : E} :
    e ∈ eventsAt l k ↔ (⟨k⟩, e) ∈ l := by
  simp only [eventsAt, List.mem_map, List.mem_filter, decide_eq_true_eq]
  constructor
  · rintro ⟨⟨p, e'⟩, ⟨hm, hk⟩, rfl⟩
    rw [← hk]
    exact hm
  · intro hm
    exact ⟨(⟨k⟩, e), ⟨hm, rfl⟩, rfl⟩

/-- A live stream without retractions. -/
def asLive (events : List (BlockPosition × E)) : List (Indexed BlockPosition E) :=
  events.map fun x => .event x.1 x.2

theorem asLive_eq_append {l : List (BlockPosition × E)} {done rest : List (Indexed BlockPosition E)}
    {p : BlockPosition} {e : E} (h : asLive l = done ++ .event p e :: rest) :
    ∃ done' rest', l = done' ++ (p, e) :: rest' ∧ done = asLive done' ∧ rest = asLive rest' := by
  obtain ⟨done', l', rfl, hdone, hl'⟩ := List.map_eq_append_iff.mp h
  obtain ⟨x, rest', rfl, hx, hrest⟩ := List.map_eq_cons_iff.mp hl'
  obtain ⟨rfl, rfl⟩ := Indexed.event.inj hx
  exact ⟨done', rest', rfl, hdone.symm, hrest.symm⟩

/-- The events of each height as the source last reported them. -/
structure Ledger (E : Type) where
  events : Nat → List E
  /-- No height from here on has been filled by the live stream. -/
  next : Nat
  /-- Whether the block below `next` is the one being emitted. -/
  opened : Bool

namespace Ledger

/-- Keep the heights below `key`. -/
def truncate (events : Nat → List E) (key k : Nat) : List E := if k < key then events k else []

/-- One live item. -/
def step (L : Ledger E) : Indexed BlockPosition E → Ledger E
  | .event ⟨key⟩ e =>
    if L.next ≤ key then
      ⟨fun k => if k = key then [e] else truncate L.events key k, key + 1, true⟩
    else { L with events := fun k => if k = key then L.events k ++ [e] else L.events k }
  | .retract ⟨key⟩ => ⟨truncate L.events key, min L.next key, false⟩

/-- What a live stream may report next: a retraction, an event of a height not filled yet, or one
more event of the block being emitted. -/
def Lawful (L : Ledger E) : Indexed BlockPosition E → Prop
  | .event ⟨key⟩ _ => L.next ≤ key ∨ L.opened = true ∧ key + 1 = L.next
  | .retract _ => True

/-- A stream every item of which is lawful when it comes. -/
def LawfulFrom (L : Ledger E) : List (Indexed BlockPosition E) → Prop
  | [] => True
  | item :: items => L.Lawful item ∧ (L.step item).LawfulFrom items

/-- The ledger after a stream. -/
def run (L : Ledger E) (items : List (Indexed BlockPosition E)) : Ledger E := items.foldl step L

/-- The ledger before the live stream: a backfill snapshot. -/
def snapshot (backfill : List (BlockPosition × E)) : Ledger E := ⟨eventsAt backfill, 0, false⟩

theorem run_append (L : Ledger E) (items items' : List (Indexed BlockPosition E)) :
    L.run (items ++ items') = (L.run items).run items' := by
  simp [run]

theorem lawfulFrom_append {L : Ledger E} {items items' : List (Indexed BlockPosition E)} :
    L.LawfulFrom (items ++ items') ↔ L.LawfulFrom items ∧ (L.run items).LawfulFrom items' := by
  induction items generalizing L with
  | nil => simp [LawfulFrom, run]
  | cons item items ih => simp [LawfulFrom, run, ih, and_assoc]

/-! ### Ascending streams -/

/-- One more event at or above the last one opens a block or joins the open one. -/
theorem step_ascending {L : Ledger E} {backfill done : List (BlockPosition × E)}
    {first last key : Nat} (e : E) (hopened : L.opened = true) (hnext : L.next = last + 1)
    (hevents : ∀ k, L.events k = if k < first then eventsAt backfill k else eventsAt done k)
    (hall : ∀ y ∈ done, y.1.block ≤ last) (hfirst : first ≤ last) (hlast : last ≤ key) :
    L.Lawful (.event ⟨key⟩ e) ∧ (L.step (.event ⟨key⟩ e)).opened = true ∧
      (L.step (.event ⟨key⟩ e)).next = key + 1 ∧
      ∀ k, (L.step (.event ⟨key⟩ e)).events k
        = if k < first then eventsAt backfill k else eventsAt (done ++ [(⟨key⟩, e)]) k := by
  simp only [step]
  by_cases hlt : last < key
  · have habove : ∀ k, key ≤ k → eventsAt done k = [] := by
      intro k hk
      refine eventsAt_eq_nil fun y hy => ?_
      have := hall y hy
      omega
    rw [if_pos (by omega)]
    refine ⟨Or.inl (by omega), rfl, rfl, fun k => ?_⟩
    simp only [truncate, hevents, eventsAt_concat]
    by_cases hk : k = key
    · subst hk
      rw [if_pos rfl, if_neg (by omega), if_pos rfl, habove k (Nat.le_refl k)]
      rfl
    · rw [if_neg hk, if_neg hk]
      by_cases hkk : k < key
      · rw [if_pos hkk]
      · rw [if_neg hkk, if_neg (by omega), habove k (by omega)]
  · rw [if_neg (by omega)]
    refine ⟨Or.inr ⟨hopened, by omega⟩, hopened, by rw [hnext]; omega, fun k => ?_⟩
    simp only [hevents, eventsAt_concat]
    by_cases hk : k = key
    · rw [if_pos hk, if_pos hk, if_neg (by omega), if_neg (by omega)]
    · rw [if_neg hk, if_neg hk]

/-- A stream of events in ascending order is lawful, and replaces the snapshot from its first height
on. -/
theorem run_ascending (backfill : List (BlockPosition × E)) {done : List (BlockPosition × E)}
    (hd : done.Pairwise fun x y => x.1.block ≤ y.1.block) :
    (snapshot backfill).LawfulFrom (asLive done) ∧
      ∀ first ∈ done.head?, ∀ last ∈ done.getLast?,
        ((snapshot backfill).run (asLive done)).opened = true ∧
        ((snapshot backfill).run (asLive done)).next = last.1.block + 1 ∧
        ∀ k, ((snapshot backfill).run (asLive done)).events k
          = if k < first.1.block then eventsAt backfill k else eventsAt done k := by
  induction done using List.reverseRecOn with
  | nil => exact ⟨trivial, by simp⟩
  | append_singleton done x ih =>
    obtain ⟨⟨key⟩, e⟩ := x
    rw [List.pairwise_append] at hd
    obtain ⟨hdone, -, hle⟩ := hd
    obtain ⟨hlaw, hrun⟩ := ih hdone
    have hstep : (snapshot backfill).run (asLive (done ++ [(⟨key⟩, e)]))
        = ((snapshot backfill).run (asLive done)).step (.event ⟨key⟩ e) := by
      simp [asLive, run]
    have hsplit : asLive (done ++ [((⟨key⟩ : BlockPosition), e)])
        = asLive done ++ [.event ⟨key⟩ e] := by simp [asLive]
    rw [hstep, hsplit, lawfulFrom_append]
    -- the first event opens a group, a later one extends the last group or opens a higher one
    rcases List.eq_nil_or_concat done with rfl | ⟨init, l, rfl⟩
    · refine ⟨⟨trivial, Or.inl (Nat.zero_le _), trivial⟩, fun first hf last hl => ?_⟩
      simp only [List.nil_append, List.head?_cons, Option.mem_def, Option.some.injEq,
        List.getLast?_singleton] at hf hl
      subst hf hl
      refine ⟨rfl, rfl, fun k => ?_⟩
      simp only [asLive, List.map_nil, run, List.foldl_nil, step, snapshot, Nat.zero_le, if_true,
        List.nil_append, truncate, eventsAt_singleton]
      by_cases hk : k = key
      · simp [hk]
      · simp [hk]
    · rw [List.concat_eq_append] at *
      have hl : l ∈ (init ++ [l]).getLast? := by simp
      obtain ⟨first, hf⟩ : ∃ first, first ∈ (init ++ [l]).head? := by
        rcases init with _ | ⟨a, init⟩ <;> simp
      obtain ⟨hop, hnx, hev⟩ := hrun first hf l hl
      have hlk : l.1.block ≤ key := hle l (by simp) (⟨key⟩, e) (by simp)
      have hall : ∀ y ∈ init ++ [l], y.1.block ≤ l.1.block := by
        intro y hy
        rcases List.mem_append.mp hy with hy | hy
        · exact (List.pairwise_append.mp hdone).2.2 y hy l (by simp)
        · rw [List.mem_singleton.mp hy]
      have hfk : first.1.block ≤ l.1.block := hall first (List.mem_of_mem_head? hf)
      obtain ⟨hlawful, hstep⟩ := step_ascending e hop hnx hev hall hfk hlk
      refine ⟨⟨hlaw, hlawful, trivial⟩, fun first' hf' last' hl' => ?_⟩
      rw [List.head?_append, Option.mem_def.mp hf] at hf'
      simp only [Option.some_or, Option.mem_def, Option.some.injEq] at hf'
      subst hf'
      rw [List.getLast?_concat, Option.mem_def, Option.some.injEq] at hl'
      subst hl'
      exact hstep

end Ledger

end ArtemisLight
