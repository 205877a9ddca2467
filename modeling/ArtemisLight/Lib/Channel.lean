import Mathlib

/-!
# Channels with many receivers

A broadcast channel keeps the last messages, up to its capacity, for any number of receivers.  A
receiver that has fallen behind by more is told how many messages it has missed, and goes on with
the oldest one that is kept.  `Channel` is what the users of such a channel rely on, whatever it is
made of: what it gives depends on the history of all messages ever sent (`Channel.Holds.recv`).
`Traverses` ties what a receiver has been given to the part of the history that it has passed.
-/

namespace ArtemisLight

/-- What a receiver is given. -/
inductive Received (α : Type*) where
  | item (a : α)
  /-- So many messages were missed. -/
  | lagged (missed : Nat)
  deriving DecidableEq

/-- The operations of a broadcast channel, and its laws: each is about the channel into which a
history of messages has been sent since it was opened. -/
structure Channel where
  /-- A channel of messages of this type. -/
  Of : Type → Type
  Receiver : Type
  new {α : Type} (capacity : Nat) : Of α
  send {α : Type} (channel : Of α) (a : α) : Of α
  subscribe {α : Type} (channel : Of α) : Receiver
  /-- The next message for a receiver, if there is one. -/
  recv {α : Type} (channel : Of α) (receiver : Receiver) : Option (Received α × Receiver)
  /-- The number of the message that a receiver is to receive next. -/
  next : Receiver → Nat
  /-- A new receiver is given what is sent from now on. -/
  next_subscribe {α : Type} (capacity : Nat) (history : List α) :
    next (subscribe (history.foldl send (new capacity))) = history.length
  /-- A receiver that has passed everything is given nothing. -/
  recv_empty {α : Type} (capacity : Nat) (history : List α) (receiver : Receiver) :
    next receiver = history.length →
      recv (history.foldl send (new capacity)) receiver = none
  /-- A receiver that is behind by at most the capacity is given the next message. -/
  recv_item {α : Type} (capacity : Nat) (history : List α) (receiver : Receiver) (a : α) :
    history.length ≤ next receiver + capacity → history[next receiver]? = some a →
      ∃ receiver', recv (history.foldl send (new capacity)) receiver = some (.item a, receiver') ∧
        next receiver' = next receiver + 1
  /-- Any other one is told how many it missed, and goes on with the oldest one that is kept. -/
  recv_lagged {α : Type} (capacity : Nat) (history : List α) (receiver : Receiver) (missed : Nat) :
    0 < missed → next receiver + missed + capacity = history.length →
      ∃ receiver', recv (history.foldl send (new capacity)) receiver
          = some (.lagged missed, receiver') ∧
        next receiver' = next receiver + missed

namespace Channel

variable {C : Channel} {α : Type} {capacity : Nat} {history : List α} {channel : C.Of α}
  {receiver receiver' : C.Receiver}

/-- The channel after the messages `history` have been sent. -/
def Holds (C : Channel) (capacity : Nat) (history : List α) (channel : C.Of α) : Prop :=
  channel = history.foldl C.send (C.new capacity)

theorem Holds.new (capacity : Nat) : C.Holds capacity ([] : List α) (C.new capacity) := rfl

theorem Holds.send (h : C.Holds capacity history channel) (a : α) :
    C.Holds capacity (history ++ [a]) (C.send channel a) := by
  rw [Holds, List.foldl_append, ← h]
  rfl

theorem Holds.subscribe (h : C.Holds capacity history channel) :
    C.next (C.subscribe channel) = history.length := by
  rw [h]
  exact C.next_subscribe capacity history

/-- The three laws of a receiver cover all that have not passed the end. -/
theorem Holds.recv (h : C.Holds capacity history channel)
    (hle : C.next receiver ≤ history.length) :
    (C.next receiver = history.length ∧ C.recv channel receiver = none) ∨
    (∃ a receiver', history.length ≤ C.next receiver + capacity ∧
      history[C.next receiver]? = some a ∧ C.next receiver' = C.next receiver + 1 ∧
      C.recv channel receiver = some (.item a, receiver')) ∨
    (∃ missed receiver', 0 < missed ∧ C.next receiver + missed + capacity = history.length ∧
      C.next receiver' = C.next receiver + missed ∧
      C.recv channel receiver = some (.lagged missed, receiver')) := by
  rw [h]
  rcases Nat.lt_or_eq_of_le hle with hlt | heq
  · rcases Nat.lt_or_ge (C.next receiver + capacity) history.length with hlag | hnear
    · obtain ⟨receiver', hrecv, hnext⟩ := C.recv_lagged capacity history receiver
        (history.length - capacity - C.next receiver) (by omega) (by omega)
      exact Or.inr (Or.inr ⟨_, receiver', by omega, by omega, hnext, hrecv⟩)
    · have hget := List.getElem?_eq_getElem hlt
      obtain ⟨receiver', hrecv, hnext⟩ := C.recv_item capacity history receiver _ hnear hget
      exact Or.inr (Or.inl ⟨_, receiver', hnear, hget, hnext, hrecv⟩)
  · exact Or.inl ⟨heq, C.recv_empty capacity history receiver heq⟩

/-- A receiver that is given something has moved on, and not beyond the last message. -/
theorem Holds.next_lt (h : C.Holds capacity history channel) {r : Received α}
    (hle : C.next receiver ≤ history.length)
    (hrecv : C.recv channel receiver = some (r, receiver')) :
    C.next receiver < C.next receiver' ∧ C.next receiver' ≤ history.length := by
  rcases h.recv hle with ⟨-, hn⟩ | ⟨a, receiver₁, -, ha, hnext, hs⟩ |
    ⟨n, receiver₁, hn, hlen, hnext, hs⟩
  · rw [hn] at hrecv
    exact absurd hrecv (by simp)
  · obtain ⟨rfl, rfl⟩ := Prod.mk.inj (Option.some.inj (hs.symm.trans hrecv))
    have := (List.getElem?_eq_some_iff.mp ha).1
    omega
  · obtain ⟨rfl, rfl⟩ := Prod.mk.inj (Option.some.inj (hs.symm.trans hrecv))
    omega

/-- Nothing has been sent, so nothing is received. -/
theorem Holds.recv_nil (h : C.Holds capacity ([] : List α) channel) (hle : C.next receiver ≤ 0) :
    C.recv channel receiver = none := by
  rw [h]
  exact C.recv_empty capacity [] receiver (Nat.le_zero.mp hle)

end Channel

variable {α : Type*}

/-! ### What a receiver has been given -/

/-- The messages among what a receiver has been given. -/
def items (given : List (Received α)) : List α :=
  given.filterMap fun
    | .item a => some a
    | .lagged _ => none

/-- How many messages a receiver has missed. -/
def missed (given : List (Received α)) : Nat :=
  (given.map fun
    | .item _ => 0
    | .lagged n => n).sum

/-- What a receiver has been given of the messages `l`, which it has passed. -/
inductive Traverses : List (Received α) → List α → Prop where
  | nil : Traverses [] []
  | item {given : List (Received α)} {l : List α} (a : α) :
      Traverses given l → Traverses (given ++ [.item a]) (l ++ [a])
  | lagged {given : List (Received α)} {l : List α} (l' : List α) :
      Traverses given l → Traverses (given ++ [.lagged l'.length]) (l ++ l')

namespace Traverses

variable {given : List (Received α)} {l : List α}

/-- The messages come in order, each once, and those left out are counted. -/
theorem items (h : Traverses given l) :
    (ArtemisLight.items given).Sublist l ∧
      (ArtemisLight.items given).length + missed given = l.length := by
  induction h with
  | nil => exact ⟨List.Sublist.slnil, rfl⟩
  | @item given l a _ ih =>
    simp only [ArtemisLight.items, missed, List.filterMap_append, List.map_append, List.sum_append,
      List.length_append] at ih ⊢
    exact ⟨ih.1.append (List.Sublist.refl _), by simp; omega⟩
  | @lagged given l l' _ ih =>
    simp only [ArtemisLight.items, missed, List.filterMap_append, List.map_append, List.sum_append,
      List.length_append] at ih ⊢
    exact ⟨ih.1.append (List.nil_sublist l'), by simp; omega⟩

/-- A receiver that has missed nothing has been given everything. -/
theorem eq_of_missed (h : Traverses given l) (hm : missed given = 0) :
    ArtemisLight.items given = l := by
  obtain ⟨hsub, hlen⟩ := h.items
  exact hsub.eq_of_length (by omega)

end Traverses

/-! ### Receivers of one channel -/

/-- What a receiver may be given of the messages of a channel: each at most once and in order.  It
is told how many of those it has passed it was not given, and there are none of these as long as
the channel can hold everything. -/
structure Relayed (capacity : Nat) (history : List α) (given : List (Received α)) : Prop where
  sublist : (items given).Sublist history
  counted : (items given).length + missed given ≤ history.length
  whole : missed given = 0 → items given <+: history
  kept : history.length ≤ capacity → missed given = 0

/-- A receiver that has been given `given` since the channel was opened, and is to receive the
message number `next`.  It has missed nothing as long as the channel can hold everything. -/
structure Followed (capacity : Nat) (history : List α) (given : List (Received α)) (next : Nat) :
    Prop where
  traverses : Traverses given (history.take next)
  le : next ≤ history.length
  missed : missed given = 0 ∨ capacity < history.length

namespace Followed

section Messages

variable {capacity next : Nat} {history : List α} {given : List (Received α)}

/-- More messages in the channel. -/
theorem append (h : Followed capacity history given next) (l : List α) :
    Followed capacity (history ++ l) given next := by
  refine ⟨?_, ?_, h.missed.imp id fun hlt => ?_⟩
  · rw [List.take_append_of_le_length h.le]
    exact h.traverses
  · rw [List.length_append]
    exact Nat.le_add_right_of_le h.le
  · rw [List.length_append]
    exact Nat.lt_add_right _ hlt

theorem relayed (h : Followed capacity history given next) :
    Relayed capacity history given := by
  obtain ⟨hsub, hlen⟩ := h.traverses.items
  refine ⟨hsub.trans (List.take_sublist _ _), ?_, fun hm => ?_, fun hle => ?_⟩
  · rw [hlen]
    exact List.length_take_le' _ _
  · rw [h.traverses.eq_of_missed hm]
    exact List.take_prefix _ _
  · exact h.missed.resolve_right (by omega)

end Messages

variable {C : Channel} {α : Type} {capacity : Nat} {history : List α} {given : List (Received α)}
  {channel : C.Of α} {receiver receiver' : C.Receiver}

theorem subscribe (capacity : Nat) : Followed capacity ([] : List α) []
    (C.next (C.subscribe (C.new capacity : C.Of α))) := by
  rw [(Channel.Holds.new capacity).subscribe]
  exact ⟨.nil, Nat.le_refl _, Or.inl rfl⟩

/-- One more message for the receiver. -/
theorem recv (h : Followed capacity history given (C.next receiver))
    (hc : C.Holds capacity history channel) {r : Received α}
    (hrecv : C.recv channel receiver = some (r, receiver')) :
    Followed capacity history (given ++ [r]) (C.next receiver') := by
  rcases hc.recv h.le with ⟨-, hn⟩ | ⟨a, receiver₁, -, ha, hnext, hs⟩ |
    ⟨n, receiver₁, hn, hlen, hnext, hs⟩
  · rw [hn] at hrecv
    exact absurd hrecv (by simp)
  · obtain ⟨rfl, rfl⟩ := Prod.mk.inj (Option.some.inj (hs.symm.trans hrecv))
    have hlt := (List.getElem?_eq_some_iff.mp ha).1
    rw [hnext]
    refine ⟨?_, hlt, ?_⟩
    · rw [List.take_add_one, ha]
      exact h.traverses.item a
    · simpa [ArtemisLight.missed] using h.missed
  · obtain ⟨rfl, rfl⟩ := Prod.mk.inj (Option.some.inj (hs.symm.trans hrecv))
    rw [hnext]
    refine ⟨?_, by omega, Or.inr (by omega)⟩
    have hlag := h.traverses.lagged ((history.drop (C.next receiver)).take n)
    rw [List.length_take, List.length_drop, Nat.min_eq_left (by omega)] at hlag
    rwa [List.take_add]

/-- A receiver that is given nothing more has passed everything. -/
theorem of_none (h : Followed capacity history given (C.next receiver))
    (hc : C.Holds capacity history channel) (hrecv : C.recv channel receiver = none) :
    Traverses given history := by
  rcases hc.recv h.le with ⟨hn, -⟩ | ⟨a, _, -, -, -, hs⟩ | ⟨n, _, -, -, -, hs⟩
  · have htraverses := h.traverses
    rwa [hn, List.take_length] at htraverses
  · exact absurd (hs.symm.trans hrecv) (by simp)
  · exact absurd (hs.symm.trans hrecv) (by simp)

end Followed

end ArtemisLight
