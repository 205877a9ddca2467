import ArtemisLight.Persistence.Writer.Equiv.Ledger

/-!
# Accepted rows are encoded events

`Encoded` says that every row a writer has taken is what the record, as it now is, encodes for its
event.  So equal events have equal rows, and a row's payload is its event's.
-/

namespace ArtemisLight

open ConfirmationWindow

variable {σ ρ E : Type}

/-- Every accepted row is the present record's encoding of its event. -/
def Encoded {P : Type} [RecordOps ρ E] (io : Io σ ρ P E) : Prop :=
  ∀ w p e row, .accepted w p e row ∈ io.effects →
    RecordOps.encode io.record e = (.ok row, io.record)

section Encoded

variable [RecordOps ρ E] {io : Io σ ρ BlockPosition E}

theorem Encoded.append (h : Encoded io) (store : σ) (xs : List (Effect BlockPosition E))
    (hx : ∀ x ∈ xs, x.accepted? = none) :
      Encoded (⟨store, io.record, io.effects ++ xs⟩ : Io σ ρ _ E) := by
  intro w p e row hm
  rcases List.mem_append.mp hm with hm | hm
  · exact h w p e row hm
  · exact absurd (hx _ hm) (by simp [Effect.accepted?])

/-- Encoding one more event does not change what the accepted rows are. -/
theorem Encoded.record (h : Encoded io) {event : E} {res : Except Error Row} {record : ρ}
    (he : RecordOps.encode io.record event = (res, record)) :
    Encoded ({ io with record } : Io σ ρ _ E) := by
  intro w p e row hm
  have hold := h w p e row hm
  have hfr := RecordOps.encode_frozen hold event
  rw [he] at hfr
  simp only at hfr
  simpa only [hfr] using hold

theorem Encoded.accepted (h : Encoded io) (writer : Writer) (position : BlockPosition) {event : E}
    {row : Row} {record : ρ} (he : RecordOps.encode io.record event = (.ok row, record)) (store : σ)
    (mid : List (Effect BlockPosition E)) (hmid : ∀ x ∈ mid, x.accepted? = none) :
    Encoded (⟨store, record, io.effects ++ mid ++ [.accepted writer position event row]⟩ :
      Io σ ρ _ E) := by
  intro w p e row' hm
  rw [List.mem_append, List.mem_append, List.mem_singleton] at hm
  rcases hm with (hm | hm) | hm
  · exact h.record he w p e row' hm
  · exact absurd (hmid _ hm) (by simp [Effect.accepted?])
  · cases hm
    exact RecordOps.encode_again he

theorem Encoded.deliver (h : Encoded io) (position : BlockPosition) (event : E) (delivered : Bool) :
    Encoded (io.deliver position event delivered) :=
  h.append io.store _ fun x hx => by
    rw [List.mem_singleton.mp hx]
    cases delivered <;> rfl

/-- The row of an event that is or was held. -/
theorem Encoded.held (h : Encoded io) {l : List (Effect BlockPosition E)} (hl : l <+: io.effects)
    {k : Nat} {x : E × Row} (hx : x ∈ held l k) :
    RecordOps.encode io.record x.1 = (.ok x.2, io.record) := by
  obtain ⟨w, p, hm, -⟩ := mem_held hx
  exact h w p x.1 x.2 (hl.subset hm)

/-- The payloads of held rows are the payloads of the held events. -/
theorem Encoded.payloads (h : Encoded io) {l : List (Effect BlockPosition E)}
    (hl : l <+: io.effects)
    (k : Nat) : (heldRows l k).map Row.payload?
      = (heldEvents l k).map fun e => some (.text (RecordOps.payload ρ e)) := by
  rw [List.map_map, List.map_map]
  exact List.map_congr_left fun x hx => RecordOps.encode_payload (h.held hl hx)

end Encoded

variable [Store σ BlockPosition] [RecordOps ρ E] {s : Pipeline σ ρ BlockPosition E}

omit [Store σ BlockPosition] in
theorem Encoded.flush {w w' : ConfirmationWindow BlockPosition} {io io' : Io σ ρ BlockPosition E}
    {bs : List Nat} (he : Encoded io) (h : Flush w io bs w' io') : Encoded io' := by
  obtain ⟨fl, hfl, hx⟩ := h.effects
  have hap := he.append io'.store fl fun x hm => by
    rcases hx x hm with ⟨b, -, p, -, rfl⟩ | ⟨e, rfl⟩ <;> rfl
  have : io' = ⟨io'.store, io.record, io.effects ++ fl⟩ := by
    rw [← hfl, ← h.record]
  rw [this]
  exact hap

theorem Encoded.liveStep (h : Encoded s.io) (item : Indexed BlockPosition E) :
    Encoded (s.liveStep item).io := by
  rcases item with ⟨position, event⟩ | position
  · rw [Pipeline.liveStep_event]
    refine Encoded.deliver ?_ position event _
    rcases s.window.record_cases rfl s.io position event with
      ⟨-, he⟩ | ⟨-, -, he⟩ | ⟨-, -, e, record, hr, he⟩ |
      ⟨-, -, row, schema, record, w', io', d, hr, ha, he⟩
    · rw [he]
      exact h
    · rw [he]
      exact h.append s.io.store _ (by simp [Effect.accepted?])
    · rw [he]
      exact (h.record hr).append s.io.store _ (by simp [Effect.accepted?])
    · rw [he]
      obtain ⟨bs, -, hfl⟩ := w'.flushMatured_spec io' (by rw [ha.core]; exact fun _ _ _ => rfl)
      refine Encoded.flush ?_ hfl
      have hacc := h.accepted .window position hr s.io.store
        (if (s.window.withSchema schema).reorgAt (Position.sortKey position) then
            [.rewound (Position.sortKey position)]
          else if (s.window.withSchema schema).seededAt (Position.sortKey position) then
            [.rebuilt (Position.sortKey position)]
          else []) fun x hx => by
          split at hx
          · rw [List.mem_singleton.mp hx]; rfl
          · split at hx
            · rw [List.mem_singleton.mp hx]; rfl
            · exact absurd hx (by simp)
      obtain ⟨store', record', effects'⟩ := io'
      obtain rfl : record' = record := ha.record
      obtain rfl : store' = s.io.store := ha.store
      obtain rfl := ha.effects
      exact hacc
  · rw [Pipeline.liveStep_retract]
    rcases s.window.retract_cases rfl s.io position with ⟨-, he⟩ | ⟨-, -, he⟩ | ⟨-, -, he⟩
    · rw [he]
      exact h
    · rw [he]
      exact h.append s.io.store _ (by simp [Effect.accepted?])
    · rw [he]
      exact h.append s.io.store _ (by simp [Effect.accepted?])

theorem Encoded.backfillStep {cut : Option Nat} (h : Encoded s.io) (item : BlockPosition × E) :
    Encoded (s.backfillStep cut item).io := by
  obtain ⟨position, event⟩ := item
  by_cases hc : ∃ c ∈ cut, position.block ≤ c
  · obtain ⟨c, hc, hle⟩ := hc
    rw [s.backfillStep_of_le event hc hle]
    refine Encoded.deliver ?_ position event _
    have hstep := BlockWriter.record_recorded rfl s.settled s.io position event
    generalize s.settled.record s.io position event = r at hstep
    cases hstep with
    | unhealthy hh => exact h
    | encode hh e record he =>
      exact (h.record he).append s.io.store _ (by simp [Effect.accepted?])
    | unordered hh row schema record he cur hcur hlt =>
      exact (h.record he).append s.io.store _ (by simp [Effect.accepted?])
    | write hh row schema record he cur hcur hlt e store hw =>
      exact (h.record he).append store _ (by simp [Effect.accepted?])
    | «extends» hh row schema record he hcur =>
      have := h.accepted .settled position he s.io.store [] (by simp)
      rwa [List.append_nil] at this
    | advances hh row schema record he cur hcur hlt store hw =>
      have := h.accepted .settled position he store
        [.wrote s.settled.core.writer cur s.settled.buffer] (by simp [Effect.accepted?])
      rwa [List.append_assoc] at this
  · have hlt : ∀ c ∈ cut, c < position.block := fun c hcm =>
      Nat.lt_of_not_le fun hle => hc ⟨c, hcm, hle⟩
    rw [s.backfillStep_of_lt event hlt]
    refine Encoded.deliver ?_ position event _
    rcases s.window.recordSeeded_cases rfl s.io position event with
      ⟨-, he⟩ | ⟨-, b, -, -, he⟩ | ⟨-, -, e, record, hr, he⟩ | ⟨-, -, row, schema, record, hr, he⟩
    · rw [he]
      exact h
    · rw [he]
      exact h.append s.io.store _ (by simp [Effect.accepted?])
    · rw [he]
      exact (h.record hr).append s.io.store _ (by simp [Effect.accepted?])
    · rw [he]
      obtain ⟨bs, -, hfl⟩ :=
        ((s.window.withSchema schema).acceptSeeded { s.io with record } position
        event row).1.flushMatured_spec (({ s.io with record } : Io σ ρ _ E).emit
          (.accepted .window position event row)) fun _ _ _ => rfl
      refine Encoded.flush ?_ hfl
      have := h.accepted .window position hr s.io.store [] (by simp)
      rwa [List.append_nil] at this

omit [Store σ BlockPosition] in
theorem Encoded.start {cut : Option Nat} {depth : Nat} {seed : Option BlockPosition} (store : σ)
    (record : ρ) : Encoded (E := E) (Pipeline.start store record depth cut seed).io :=
  fun _ _ _ _ hm => absurd hm (by simp [Pipeline.start])

theorem Encoded.settle (h : Encoded s.io) : Encoded s.settle.io := by
  have hfin : Encoded (s.settled.finish s.io).2 := by
    obtain ⟨store, xs, he, hx⟩ := s.settled.finish_quiet s.io
    rw [he]
    refine h.append store xs fun x hm => ?_
    have := hx x hm
    cases x <;> first | rfl | exact absurd this id
  cases hf : (s.settled.finish s.io).1.core.healthy with
  | true =>
    rw [s.settle_of_healthy hf]
    exact hfin
  | false =>
    rw [s.settle_of_unhealthy hf]
    exact hfin.append (s.settled.finish s.io).2.store [.halted _ .settledHalted]
      (by simp [Effect.accepted?])

/-- Along a whole subscription the accepted rows are encoded events. -/
theorem encoded_persistAndEmit (backfill : List (BlockPosition × E))
    (live : List (Indexed BlockPosition E)) (store : σ) (record : ρ) (depth : Nat)
    (cut : Option Nat)
    (seed : Option BlockPosition) :
    Encoded (persistAndEmit backfill live store record depth cut seed).io := by
  have hback : Encoded (backfill.foldl (Pipeline.backfillStep cut)
      (Pipeline.start store record depth cut seed)).io :=
    foldl_preserves (fun s : Pipeline σ ρ BlockPosition E => Encoded s.io)
      (Encoded.start store record) fun s item _ h => h.backfillStep item
  exact foldl_preserves (fun s : Pipeline σ ρ BlockPosition E => Encoded s.io) hback.settle
    fun s item _ h => h.liveStep item

end ArtemisLight
