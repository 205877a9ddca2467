import ArtemisLight.Lib.Channel

/-!
# A ring of messages

`Broadcast` is a channel that keeps its last messages in a list, and knows how many it has been
sent.  `Broadcast.channel` shows that it behaves as a `Channel`.
-/

namespace ArtemisLight

variable {α : Type}

/-- A channel: how many messages have been sent, and the kept ones, oldest first. -/
structure Broadcast (α : Type) where
  capacity : Nat
  sent : Nat
  slots : List α

namespace Broadcast

def new (capacity : Nat) : Broadcast α := ⟨capacity, 0, []⟩

/-- A new message takes the place of the oldest one if the channel is full. -/
def send (channel : Broadcast α) (a : α) : Broadcast α :=
  { channel with
    sent := channel.sent + 1
    slots := (channel.slots ++ [a]).drop (channel.slots.length + 1 - channel.capacity) }

/-- The number of the oldest message that is kept. -/
def oldest (channel : Broadcast α) : Nat := channel.sent - channel.slots.length

/-- The next message for a receiver that has passed `next` of them. -/
def recv (channel : Broadcast α) (next : Nat) : Option (Received α × Nat) :=
  if next < channel.oldest then some (.lagged (channel.oldest - next), channel.oldest)
  else (channel.slots[next - channel.oldest]?).map fun a => (.item a, next + 1)

/-- The channel keeps the last messages of the history. -/
theorem foldl_send (capacity : Nat) (history : List α) :
    history.foldl send (new capacity)
      = ⟨capacity, history.length, history.drop (history.length - capacity)⟩ := by
  induction history using List.reverseRecOn with
  | nil =>
    rw [List.drop_nil]
    rfl
  | append_singleton history a ih =>
    rw [List.foldl_append, ih]
    show Broadcast.mk _ _ _ = _
    have hlen : (history.drop (history.length - capacity)).length
        = history.length - (history.length - capacity) := List.length_drop
    have hslots : (history.drop (history.length - capacity) ++ [a]).drop
          ((history.drop (history.length - capacity)).length + 1 - capacity)
        = (history ++ [a]).drop ((history ++ [a]).length - capacity) := by
      rw [hlen, ← List.drop_append_of_le_length (Nat.sub_le _ _), List.drop_drop,
        List.length_append, List.length_singleton]
      congr 1
      omega
    simp only [hslots, List.length_append, List.length_singleton]

theorem oldest_foldl (capacity : Nat) (history : List α) :
    (history.foldl send (new capacity)).oldest = history.length - capacity := by
  rw [foldl_send]
  show history.length - (history.drop (history.length - capacity)).length = _
  rw [List.length_drop]
  omega

/-- A receiver that is behind by at most the capacity reads the history. -/
theorem recv_near {capacity : Nat} {history : List α} (next : Nat)
    (hnear : history.length ≤ next + capacity) :
    (history.foldl send (new capacity)).recv next
      = (history[next]?).map fun a => (.item a, next + 1) := by
  have hget : (history.drop (history.length - capacity))[next - (history.length - capacity)]?
      = history[next]? := by
    rw [List.getElem?_drop]
    congr 1
    omega
  rw [recv, oldest_foldl, if_neg (by omega), foldl_send, hget]

theorem recv_far {capacity next missed : Nat} {history : List α} (hmissed : 0 < missed)
    (hlen : next + missed + capacity = history.length) :
    (history.foldl send (new capacity)).recv next = some (.lagged missed, next + missed) := by
  rw [recv, oldest_foldl, if_pos (by omega)]
  congr 3
  · omega
  · omega

/-- A receiver is the number of messages it has passed. -/
def channel : Channel where
  Of := Broadcast
  Receiver := Nat
  new := new
  send := send
  subscribe channel := channel.sent
  recv := recv
  next := id
  next_subscribe capacity history := by rw [foldl_send]; rfl
  recv_empty capacity history receiver h := by
    obtain rfl : receiver = history.length := h
    rw [recv_near _ (Nat.le_add_right _ _), List.getElem?_eq_none (Nat.le_refl _)]
    rfl
  recv_item capacity history receiver a hnear hget := by
    have hnext : history[receiver]? = some a := hget
    have hrecv := recv_near receiver hnear
    rw [hnext] at hrecv
    exact ⟨receiver + 1, hrecv, rfl⟩
  recv_lagged capacity history receiver missed hmissed hlen :=
    ⟨receiver + missed, recv_far hmissed hlen, rfl⟩

end Broadcast

end ArtemisLight
