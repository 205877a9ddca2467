import ArtemisLight.Persistence.Writer.Equiv.Encoded
import Mathlib.Data.List.Perm.Subperm

/-!
# Nothing is written before it is delivered

A `Delivery` is a row whose event has been yielded.  Whatever is written is covered by deliveries
made before, different rows by different yields (`Delivered`).  The invariant behind it (`Owed`)
counts the rows a group still expects to be re-emitted with the rows it holds: a re-emission that is
suppressed moves a row from one to the other.
-/

namespace ArtemisLight

open ConfirmationWindow

variable {σ ρ E : Type}

/-! ### Deliveries -/

/-- A row accepted at a sort key whose event has been yielded. -/
structure Delivery (E : Type) where
  key : Nat
  event : E
  row : Row

/-- The rows delivered at a sort key. -/
def rowsFor (D : List (Delivery E)) (k : Nat) : List Row :=
  (D.filter fun x => decide (x.key = k)).map Delivery.row

theorem rowsFor_concat (D : List (Delivery E)) (x : Delivery E) (k : Nat) :
    rowsFor (D ++ [x]) k = if k = x.key then rowsFor D k ++ [x.row] else rowsFor D k := by
  unfold rowsFor
  rw [List.filter_append, List.map_append]
  by_cases hk : k = x.key
  · simp [hk]
  · simp [hk, eq_comm]

/-- The deliveries are different yields of accepted events, and cover what has been written. -/
structure Delivered (D : List (Delivery E)) (effects : List (Effect BlockPosition E)) : Prop where
  yielded : (D.map Delivery.event).Sublist (yields effects)
  accepted : ∀ x ∈ D, ∃ w, .accepted w ⟨x.key⟩ x.event x.row ∈ effects
  written : ∀ g ∈ writes effects, g.2.Subperm (rowsFor D g.1.block)

namespace Delivered

variable {D : List (Delivery E)} {effects : List (Effect BlockPosition E)}

theorem nil : Delivered (E := E) [] [] := ⟨List.Sublist.slnil, by simp, by simp [writes]⟩

/-- More effects, of which the writes are covered. -/
theorem append (h : Delivered D effects) {xs : List (Effect BlockPosition E)}
    (hx : ∀ w p rows, .wrote w p rows ∈ xs → rows.Subperm (rowsFor D p.block)) :
    Delivered D (effects ++ xs) := by
  refine ⟨?_, fun x hm => ?_, fun g hg => ?_⟩
  · rw [yields_append]
    exact h.yielded.trans (List.sublist_append_left _ _)
  · obtain ⟨w, hw⟩ := h.accepted x hm
    exact ⟨w, List.mem_append_left _ hw⟩
  · rw [writes_append, List.mem_append] at hg
    rcases hg with hg | hg
    · exact h.written g hg
    · obtain ⟨w, hw⟩ := mem_writes.mp hg
      exact hx w g.1 g.2 hw

/-- An accepted event is yielded. -/
theorem yield (h : Delivered D effects) {w : Writer} {position : BlockPosition} {event : E}
    {row : Row}
    (ha : .accepted w position event row ∈ effects) :
    Delivered (D ++ [⟨position.block, event, row⟩]) (effects ++ [.yielded event]) := by
  refine ⟨?_, fun x hm => ?_, fun g hg => ?_⟩
  · rw [yields_append, List.map_append]
    exact h.yielded.append (List.Sublist.refl _)
  · rcases List.mem_append.mp hm with hm | hm
    · obtain ⟨w, hw⟩ := h.accepted x hm
      exact ⟨w, List.mem_append_left _ hw⟩
    · rw [List.mem_singleton.mp hm]
      exact ⟨w, List.mem_append_left _ ha⟩
  · have hg' : g ∈ writes effects := by
      rw [writes_append] at hg
      simpa [writes, Effect.wrote?] using hg
    rw [rowsFor_concat]
    split
    · exact (h.written g hg').trans (List.sublist_append_left _ _).subperm
    · exact h.written g hg'

end Delivered

/-- At every moment of the trace what has been written is covered by deliveries. -/
def AlwaysDelivered (effects : List (Effect BlockPosition E)) : Prop :=
  Always (fun past x => ∃ D, Delivered D (past ++ [x])) effects

theorem AlwaysDelivered.append {effects xs : List (Effect BlockPosition E)}
    (h : AlwaysDelivered effects) {D : List (Delivery E)} (hD : Delivered D effects)
    (hx : ∀ w p rows, .wrote w p rows ∈ xs → rows.Subperm (rowsFor D p.block)) :
    AlwaysDelivered (effects ++ xs) := by
  refine Always.append h fun past x rest he => ⟨D, ?_⟩
  rw [List.append_assoc]
  refine hD.append fun w p rows hm => hx w p rows ?_
  rw [he]
  rcases List.mem_append.mp hm with hm | hm
  · exact List.mem_append_left _ hm
  · rw [List.mem_singleton.mp hm]
    simp

/-! ### The invariant -/

/-- The rows a group of a healthy window still expects to be re-emitted. -/
def ConfirmationWindow.expectedAt (w : ConfirmationWindow BlockPosition) (k : Nat) : List Row :=
  if w.core.healthy then (w.pending[k]?).elim [] Pending.expected else []

/-- What is held, and what is still expected, has been delivered. -/
structure Owed (D : List (Delivery E)) (w : ConfirmationWindow BlockPosition)
    (effects : List (Effect BlockPosition E)) : Prop where
  delivered : Delivered D effects
  held : ∀ k, (heldRows effects k ++ w.expectedAt k).Subperm (rowsFor D k)

/-- The invariant of a subscription. -/
def DeliveryInv (s : Pipeline σ ρ BlockPosition E) : Prop :=
  AlwaysDelivered s.io.effects ∧ ∃ D, Owed D s.window s.io.effects

section Window

variable {w : ConfirmationWindow BlockPosition} {io : Io σ ρ BlockPosition E}
    {D : List (Delivery E)}
  {effects : List (Effect BlockPosition E)}

theorem expectedAt_of_unhealthy (h : w.core.healthy = false) (k : Nat) : w.expectedAt k = [] := by
  unfold expectedAt
  rw [h]
  rfl

theorem expectedAt_of_healthy (h : w.core.healthy = true) (k : Nat) :
    w.expectedAt k = (w.pending[k]?).elim [] Pending.expected := by
  unfold expectedAt
  rw [if_pos h]

theorem Owed.heldRows (h : Owed D w effects) (k : Nat) :
    (ArtemisLight.heldRows effects k).Subperm (rowsFor D k) :=
  (List.sublist_append_left _ _).subperm.trans (h.held k)

/-- A flush only forgets what is expected. -/
theorem expectedAt_flush {bs : List Nat} {w' : ConfirmationWindow BlockPosition}
    {io' : Io σ ρ BlockPosition E} (hfl : Flush w io bs w' io') (k : Nat) :
    (w'.expectedAt k).Sublist (w.expectedAt k) := by
  cases hh : w'.core.healthy with
  | false =>
    rw [expectedAt_of_unhealthy hh]
    exact List.nil_sublist _
  | true =>
    obtain ⟨hw, hpend⟩ := hfl.pending hh
    rw [expectedAt_of_healthy hh, expectedAt_of_healthy hw, hpend]
    split
    · exact List.nil_sublist _
    · exact List.Sublist.refl _

/-- What a rewind leaves: a group from the backfill expects the rows it held. -/
theorem held_rewind (h : Owed D w effects) (hb : Buffered w effects) (hh : w.core.healthy = true)
    (key k : Nat) : ((if key ≤ k then [] else ArtemisLight.heldRows effects k)
      ++ ((w.rewind key).pending[k]?).elim [] Pending.expected).Subperm (rowsFor D k) := by
  have hheld := h.held k
  rw [expectedAt_of_healthy hh] at hheld
  rw [getElem?_rewind]
  rcases hp : w.pending[k]? with _ | p
  · rw [hp] at hheld
    simp only [Option.bind_none, Option.elim_none, List.append_nil] at hheld ⊢
    split
    · exact List.nil_subperm
    · exact hheld
  · rw [hp] at hheld
    simp only [Option.bind_some, Option.elim_some] at hheld ⊢
    split
    · cases hs : p.seeded with
      | false => exact List.nil_subperm
      | true =>
        simp only [if_true, Option.elim_some, Pending.unseed, List.nil_append,
          hb.rows_of_pending hp]
        exact h.heldRows k
    · exact hheld

/-- The deliveries after an event is accepted. -/
def deliveriesAfter (D : List (Delivery E)) (position : BlockPosition) (event : E) (row : Row)
    (delivered : Bool) : List (Delivery E) :=
  if delivered then D ++ [⟨position.block, event, row⟩] else D

theorem subperm_deliveriesAfter {rows : List Row} {k : Nat} (h : rows.Subperm (rowsFor D k))
    (position : BlockPosition) (event : E) (row : Row) (delivered : Bool) :
    rows.Subperm (rowsFor (deliveriesAfter D position event row delivered) k) := by
  cases delivered
  · exact h
  · simp only [deliveriesAfter, if_true, rowsFor_concat]
    split
    · exact h.trans (List.sublist_append_left _ _).subperm
    · exact h

/-- What the group of a live event holds and expects before its row is added. -/
theorem Owed.base (h : Owed D w effects) (hb : Buffered w effects) (hh : w.core.healthy = true)
    (key : Nat) :
    ((if w.reorgAt key || w.seededAt key then [] else ArtemisLight.heldRows effects key)
      ++ (w.baseAt key).elim [] Pending.expected).Subperm (rowsFor D key) := by
  have hheld := h.held key
  rw [expectedAt_of_healthy hh] at hheld
  unfold baseAt seededAt
  rcases hp : w.pending[key]? with _ | p
  · simp only [Option.bind_none, Option.elim_none, List.append_nil]
    split
    · exact List.nil_subperm
    · exact h.heldRows key
  · rw [hp, Option.elim_some] at hheld
    simp only [Option.bind_some, Option.any_some]
    by_cases hs : p.seeded = true
    · have hrows : p.unseed.expected = ArtemisLight.heldRows effects key := hb.rows_of_pending hp
      simp only [hs, Bool.or_true, if_true, Option.elim_some, List.nil_append, hrows]
      exact h.heldRows key
    · simp only [hs, Bool.or_false, Bool.false_eq_true, if_false]
      by_cases hr : w.reorgAt key = true
      · simp only [hr, if_true, Option.elim_none, List.append_nil]
        exact List.nil_subperm
      · simpa only [hr, Bool.false_eq_true, if_false, Option.elim_some] using hheld

/-- A row moves from what a group expects to what it holds, or is paid for by a new delivery. -/
theorem subperm_accepted {rows expected expected' : List Row} {row : Row} {delivered : Bool}
    {position : BlockPosition} {event : E}
    (h : (rows ++ expected).Subperm (rowsFor D position.block))
    (hfalse : delivered = false → row ∈ expected ∧ expected'.Perm (expected.erase row))
    (htrue : delivered = true → expected'.Subperm expected) :
    (rows ++ [row] ++ expected').Subperm
      (rowsFor (deliveriesAfter D position event row delivered) position.block) := by
  cases delivered with
  | false =>
    obtain ⟨hrow, hexp⟩ := hfalse rfl
    refine List.Subperm.trans (List.Perm.subperm ?_) h
    rw [List.append_assoc]
    refine List.Perm.append_left rows ?_
    exact (List.Perm.cons row hexp).trans (List.perm_cons_erase hrow).symm
  | true =>
    simp only [deliveriesAfter, if_true, rowsFor_concat]
    have hswap : (rows ++ [row] ++ expected').Perm (rows ++ expected' ++ [row]) := by
      rw [List.append_assoc, List.append_assoc]
      exact List.Perm.append_left rows List.perm_append_comm
    refine hswap.subperm.trans (List.Subperm.append ?_ (List.Subperm.refl _))
    exact ((List.subperm_append_left rows).mpr (htrue rfl)).trans h

/-- Accepting a live event: its row is owed to the yield that follows, unless the group expected
it. -/
theorem Owed.accepted {position : BlockPosition} {event : E} {row : Row}
    {w' : ConfirmationWindow BlockPosition} {io' : Io σ ρ BlockPosition E} {delivered : Bool}
    (ha : Accepted w io position event row w' io' delivered) (h : Owed D w io.effects)
    (hb : Buffered w io.effects) (hh : w.core.healthy = true) (k : Nat) :
    (ArtemisLight.heldRows io'.effects k ++ w'.expectedAt k).Subperm
      (rowsFor (deliveriesAfter D position event row delivered) k) := by
  have hh' : w'.core.healthy = true := by rw [ha.core, hh]
  rw [expectedAt_of_healthy hh', ha.pending, ArtemisLight.heldRows, ha.held]
  simp only [BlockPosition.sortKey_eq]
  -- only the group at the event's height changes, or those above it on a reorg
  by_cases hk : k = position.block
  · subst hk
    rw [if_pos rfl, if_pos rfl, List.map_append, apply_ite (List.map Prod.snd), List.map_nil,
      Option.elim_some]
    have hbase := h.base hb hh position.block
    have hdel := ha.delivered
    simp only [BlockPosition.sortKey_eq] at hdel
    refine subperm_accepted hbase (fun hfalse => ?_) fun htrue => ?_
    · obtain ⟨p, hp, hrow⟩ := hdel.mp hfalse
      rw [hp, Option.elim_some]
      refine ⟨hrow, ?_⟩
      simp only [acceptedGroup, if_pos hrow]
      exact swapRemove_perm_erase hrow
    · rcases hp : w.baseAt position.block with _ | p
      · exact List.Subperm.refl _
      · have hrow : row ∉ p.expected := fun hrow => by
          rw [hdel.mpr ⟨p, hp, hrow⟩] at htrue
          exact absurd htrue (by simp)
        simp only [acceptedGroup, if_neg hrow]
        exact List.Subperm.refl _
  · rw [if_neg hk, if_neg hk]
    refine subperm_deliveriesAfter ?_ _ _ _ _
    cases hr : w.reorgAt position.block with
    | true =>
      have := held_rewind h hb hh position.block k
      rw [if_pos rfl]
      simp only [true_and]
      rw [apply_ite (List.map Prod.snd)]
      exact this
    | false =>
      have := h.held k
      rw [expectedAt_of_healthy hh] at this
      simpa using this

/-- The step at the end of which an accepted event is yielded or suppressed. -/
theorem Owed.deliver {position : BlockPosition} {event : E} {row : Row} {d : Bool} {writer : Writer}
    (hD : Delivered D effects) (hacc : .accepted writer position event row ∈ effects)
    (hheld : ∀ k, (ArtemisLight.heldRows effects k ++ w.expectedAt k).Subperm
      (rowsFor (deliveriesAfter D position event row d) k)) :
    Owed (deliveriesAfter D position event row d) w
      (effects ++ [if d then .yielded event else .suppressed position event]) := by
  have hk : ArtemisLight.held
      (effects ++ [if d then .yielded event else .suppressed position event])
      = ArtemisLight.held effects := by
    cases d <;> simp
  refine ⟨?_, fun k => ?_⟩
  · cases d with
    | true => exact hD.yield hacc
    | false => exact hD.append (by simp)
  · rw [ArtemisLight.heldRows, hk]
    exact hheld k

end Window

/-! ### The steps -/

section Step

variable {s : Pipeline σ ρ BlockPosition E} {seed : Option BlockPosition} {cut : Option Nat}
  {tip depth : Nat}

/-- Effects that change nothing of what is held and write held groups only, behind which the window
expects no more. -/
theorem DeliveryInv.frame {t : Pipeline σ ρ BlockPosition E} (h : DeliveryInv s)
    {xs : List (Effect BlockPosition E)} (hio : t.io.effects = s.io.effects ++ xs)
    (hheld : held (s.io.effects ++ xs) = held s.io.effects)
    (hw : ∀ w p rows, .wrote w p rows ∈ xs → rows = heldRows s.io.effects p.block)
    (hexp : ∀ k, (t.window.expectedAt k).Sublist (s.window.expectedAt k)) : DeliveryInv t := by
  obtain ⟨halways, D, hD⟩ := h
  have hx : ∀ w p rows, .wrote w p rows ∈ xs → rows.Subperm (rowsFor D p.block) := by
    intro w p rows hm
    rw [hw w p rows hm]
    exact hD.heldRows p.block
  refine ⟨by rw [hio]; exact halways.append hD.delivered hx, D,
    by rw [hio]; exact hD.delivered.append hx, fun k => ?_⟩
  rw [hio, heldRows, hheld]
  exact (List.Sublist.append_left (hexp k) _).subperm.trans (hD.held k)

/-- A writer halts on an event, which is yielded all the same. -/
theorem DeliveryInv.haltYield {t : Pipeline σ ρ BlockPosition E} (h : DeliveryInv s)
    {writer : Writer}
    {r : HaltReason BlockPosition} {event : E}
    (hio : t.io.effects = s.io.effects ++ [.halted writer r] ++ [.yielded event])
    (hexp : ∀ k, (t.window.expectedAt k).Sublist (s.window.expectedAt k)) : DeliveryInv t := by
  rw [List.append_assoc] at hio
  refine h.frame hio ?_ (by simp) hexp
  rw [← List.append_assoc, held_concat_yielded, held_concat_halted]

/-- An accepted backfill event, which is yielded at once; before it held groups may be written. -/
theorem DeliveryInv.acceptYield {t : Pipeline σ ρ BlockPosition E} (h : DeliveryInv s)
    {mid : List (Effect BlockPosition E)} (hquiet : ∀ x ∈ mid, x.Quiet)
    (hw : ∀ w p rows, .wrote w p rows ∈ mid → rows = heldRows s.io.effects p.block)
    {writer : Writer} {position : BlockPosition} {event : E} {row : Row}
    (hio : t.io.effects = s.io.effects ++ mid ++ [.accepted writer position event row]
      ++ [.yielded event])
    (hexp : ∀ k, (t.window.expectedAt k).Sublist (s.window.expectedAt k)) : DeliveryInv t := by
  obtain ⟨halways, D, hD⟩ := h
  have hx : ∀ w p rows, .wrote w p rows ∈ mid ++ [.accepted writer position event row] →
      rows.Subperm (rowsFor D p.block) := by
    intro w p rows hm
    rcases List.mem_append.mp hm with hm | hm
    · rw [hw w p rows hm]
      exact hD.heldRows p.block
    · exact absurd hm (by simp)
  rw [List.append_assoc s.io.effects] at hio
  have hend : Owed (deliveriesAfter D position event row true) t.window t.io.effects := by
    rw [hio]
    have hacc : .accepted writer position event row
        ∈ s.io.effects ++ (mid ++ [.accepted writer position event row]) := by simp
    refine Owed.deliver (d := true) (hD.delivered.append hx) hacc fun k => ?_
    have hheld : held (s.io.effects ++ (mid ++ [.accepted writer position event row])) k
        = if k = position.block then held s.io.effects k ++ [(event, row)]
          else held s.io.effects k := by
      rw [← List.append_assoc, held_concat_accepted, held_append_of_quiet _ hquiet]
      rfl
    have hk : (heldRows s.io.effects k ++ t.window.expectedAt k).Subperm (rowsFor D k) :=
      (List.Sublist.append_left (hexp k) _).subperm.trans (hD.held k)
    rw [heldRows, hheld]
    simp only [deliveriesAfter, if_true, rowsFor_concat]
    -- at the event's height both sides grow by its row
    by_cases hkey : k = position.block
    · rw [if_pos hkey, if_pos hkey, List.map_append]
      have hswap : (heldRows s.io.effects k ++ [row] ++ t.window.expectedAt k).Perm
          (heldRows s.io.effects k ++ t.window.expectedAt k ++ [row]) := by
        rw [List.append_assoc, List.append_assoc]
        exact List.Perm.append_left _ List.perm_append_comm
      exact hswap.subperm.trans (hk.append (List.Subperm.refl _))
    · rw [if_neg hkey, if_neg hkey]
      exact hk
  refine ⟨?_, _, hend⟩
  have hlast := hend.delivered
  rw [hio] at hlast ⊢
  exact Always.concat (AlwaysDelivered.append halways hD.delivered hx) ⟨_, hlast⟩

theorem DeliveryInv.pushYield {t : Pipeline σ ρ BlockPosition E} (h : DeliveryInv s)
    {writer : Writer}
    {position : BlockPosition} {event : E} {row : Row}
    (hio : t.io.effects = s.io.effects ++ [.accepted writer position event row]
      ++ [.yielded event])
    (hexp : ∀ k, (t.window.expectedAt k).Sublist (s.window.expectedAt k)) : DeliveryInv t :=
  h.acceptYield (List.forall_mem_nil _) (fun _ _ _ hm => absurd hm List.not_mem_nil)
    (by rw [hio, List.append_nil]) hexp

/-- An accepted live event, the flush behind it and its verdict. -/
theorem DeliveryInv.accepted {t : Pipeline σ ρ BlockPosition E} (h : DeliveryInv s)
    (hh : s.window.core.healthy = true) (hb : Buffered s.window s.io.effects)
    {position : BlockPosition} {event : E} {row : Row} {schema : TableSchema} {record : ρ}
    {w' : ConfirmationWindow BlockPosition} {io' io'' : Io σ ρ BlockPosition E} {delivered : Bool}
    (ha : Accepted (s.window.withSchema schema) { s.io with record } position event row w' io'
      delivered) (hb' : Buffered w' io'.effects) {bs : List Nat}
        (hbs : ∀ b ∈ bs, b < position.block)
    (hfl : Flush w' io' bs t.window io'') (hio : t.io = io''.deliver position event delivered) :
    DeliveryInv t := by
  obtain ⟨halways, D, hD⟩ := h
  have hD' : Owed D (s.window.withSchema schema) s.io.effects := ⟨hD.delivered, hD.held⟩
  have hheld := fun k => Owed.accepted ha hD' (hb.withSchema schema) hh k
  obtain ⟨fl, hfe, hx⟩ := hfl.effects
  -- before its groups are flushed, the event writes nothing
  obtain ⟨pre, hpre, hprew⟩ : ∃ pre, io'.effects = s.io.effects ++ pre ∧
      ∀ w p rows, .wrote w p rows ∉ pre := by
    refine ⟨_, by rw [ha.effects, List.append_assoc], fun w p rows hm => ?_⟩
    rw [List.mem_append, List.mem_singleton] at hm
    rcases hm with hm | hm
    · split at hm
      · simp at hm
      · split at hm <;> simp at hm
    · exact absurd hm (by simp)
  have hflw : ∀ w p rows, .wrote w p rows ∈ pre ++ fl → rows.Subperm (rowsFor D p.block) := by
    intro w p rows hm
    rcases List.mem_append.mp hm with hm | hm
    · exact absurd hm (hprew w p rows)
    · rcases hx _ hm with ⟨b, hbm, q, hq, he⟩ | ⟨e, he⟩
      · -- a group buried under the event is not its own
        simp only [Effect.wrote.injEq] at he
        obtain ⟨-, rfl, rfl⟩ := he
        have hb := hheld b
        have hbk := (hb'.above b q hq).2
        rw [hb'.rows_of_pending hq, hbk]
        have hsub := (List.sublist_append_left _ _).subperm.trans hb
        unfold deliveriesAfter at hsub
        split at hsub
        · rwa [rowsFor_concat, if_neg (Nat.ne_of_lt (hbs b hbm))] at hsub
        · exact hsub
      · exact absurd he (by simp)
  have hsplit : io''.effects = s.io.effects ++ (pre ++ fl) := by rw [hfe, hpre, List.append_assoc]
  -- what the flushes add is not about what is held
  have hqt : ∀ x ∈ fl, x.Quiet := by
    intro x hxm
    rcases hx x hxm with ⟨b, -, p, -, rfl⟩ | ⟨e, rfl⟩ <;> trivial
  have hend : Owed (deliveriesAfter D position event row delivered) t.window t.io.effects := by
    rw [hio]
    have hacc : .accepted .window position event row ∈ io''.effects := by
      rw [hfe, ha.effects]
      simp
    refine Owed.deliver ?_ hacc fun k => ?_
    · rw [hsplit]
      exact hD.delivered.append hflw
    · rw [heldRows, hfe, held_append_of_quiet _ hqt]
      exact (List.Sublist.append_left (expectedAt_flush hfl k) _).subperm.trans (hheld k)
  refine ⟨?_, _, hend⟩
  have hlast := hend.delivered
  rw [hio] at hlast ⊢
  refine Always.concat ?_ ⟨_, hlast⟩
  rw [hsplit]
  exact AlwaysDelivered.append halways hD.delivered hflw

variable [Store σ BlockPosition] [RecordOps ρ E]

/-- One live item. -/
theorem DeliveryInv.liveStep (h : DeliveryInv s) (hlive : LiveInv seed s) (hdepth : 0 < depth)
    (hdeq : s.window.depth = depth) {item : Indexed BlockPosition E}
    (hmax : ∀ p e, item = .event p e → p.block < u64Max) : DeliveryInv (s.liveStep item) := by
  cases hh : s.window.core.healthy with
  | false =>
    rcases item with ⟨position, event⟩ | position
    · have hs : s.liveStep (.event position event)
          = { s with io := s.io.deliver position event true } := by
        simp [Pipeline.liveStep_event, record, hh]
      rw [hs]
      exact h.frame rfl (by simp) (by simp) fun _ => List.Sublist.refl _
    · have hs : s.liveStep (.retract position : Indexed BlockPosition E) = s := by
        simp [Pipeline.liveStep_retract, retract, hh]
      rwa [hs]
  | true =>
    have hok := hlive.2 hh
    rcases item with ⟨position, event⟩ | position
    · rcases hok.event_cases hh position event with
        ⟨⟨r, he⟩, hu, -⟩
          | ⟨hf, row, schema, record, w', io', d, bs, io'', -, ha, hok', hbs, hfl, hio⟩
      · -- a halt delivers the event and holds nothing of it
        refine h.frame he ?_ (by simp) fun k => ?_
        · rw [← List.singleton_append, ← List.append_assoc, held_concat_yielded, held_concat_halted]
        · rw [expectedAt_of_unhealthy hu]
          exact List.nil_sublist _
      · refine h.accepted hh hok.buffered ha hok'.buffered (fun b hb => ?_) hfl hio
        -- an event does not bury its own height
        have hle := hbs b hb
        have := hmax position event rfl
        unfold saturatingAdd at hle
        omega
    · rw [Pipeline.liveStep_retract]
      rcases s.window.retract_cases rfl s.io position with
        ⟨hu, -⟩ | ⟨-, -, he⟩ | ⟨-, hf, he⟩
      · exact absurd hu (by simp [hh])
      · rw [he]
        refine h.frame rfl (by simp) (by simp) fun k => ?_
        rw [expectedAt_of_unhealthy rfl]
        exact List.nil_sublist _
      · rw [he]
        obtain ⟨halways, D, hD⟩ := h
        have hx : ∀ w p rows,
          (.wrote w p rows : Effect BlockPosition E) ∈ [.rewound position.block] →
            rows.Subperm (rowsFor D p.block) := by simp
        refine ⟨halways.append hD.delivered hx, D, hD.delivered.append hx, fun k => ?_⟩
        have hrew := held_rewind hD hok.buffered hh position.block k
        rw [← expectedAt_of_healthy (w := { s.window.rewind position.block with
          head := s.window.head.map (min · (position.block - 1)) }) hh k] at hrew
        simp only [Io.emit_effects, BlockPosition.sortKey_eq, heldRows, held_concat_rewound,
          apply_ite (List.map Prod.snd)]
        exact hrew

/-- One item of the backfill: its event is always yielded. -/
theorem DeliveryInv.backfillStep (h : DeliveryInv s) (hinv : BackfillInv seed cut tip depth s)
    (hbury : ∀ k, (∀ c ∈ cut, c < k) → k ≤ tip → tip < saturatingAdd u64Max k depth)
    {item : BlockPosition × E} (htip : item.1.block ≤ tip) :
      DeliveryInv (s.backfillStep cut item) := by
  obtain ⟨position, event⟩ := item
  by_cases hle : ∃ c ∈ cut, position.block ≤ c
  · obtain ⟨c, hc, hle⟩ := hle
    rw [s.backfillStep_of_le event hc hle]
    have hstep := BlockWriter.record_recorded rfl s.settled s.io position event
    generalize s.settled.record s.io position event = r at hstep
    cases hstep with
    | unhealthy hh =>
      exact h.frame rfl (by simp) (by simp) fun _ => List.Sublist.refl _
    | encode | unordered | write => exact h.haltYield rfl fun _ => List.Sublist.refl _
    | «extends» hh row schema record he hcur =>
      exact h.pushYield rfl fun _ => List.Sublist.refl _
    | advances hh row schema record he cur hcur hlt store hw =>
      -- the group that is written was buffered from accepted events
      have hquiet : ∀ x ∈ [(.wrote s.settled.core.writer cur s.settled.buffer :
          Effect BlockPosition E)], x.Quiet := by simp [Effect.Quiet]
      have hio : s.io.effects ++ [.wrote s.settled.core.writer cur s.settled.buffer,
            .accepted .settled position event row] ++ [.yielded event]
          = s.io.effects ++ [.wrote s.settled.core.writer cur s.settled.buffer]
            ++ [.accepted .settled position event row] ++ [.yielded event] := by simp
      refine h.acceptYield hquiet (fun w p rows hm => ?_) hio fun _ => List.Sublist.refl _
      simp only [List.mem_singleton, Effect.wrote.injEq] at hm
      obtain ⟨-, rfl, rfl⟩ := hm
      exact (hinv.settled hh).buffer p hcur
  · have hlt : ∀ c ∈ cut, c < position.block := fun c hc => Nat.lt_of_not_le fun hn =>
      hle ⟨c, hc, hn⟩
    rw [s.backfillStep_of_lt event hlt]
    rcases hinv.recordSeeded_cases hbury event hlt htip with
      ⟨hh, he⟩ | ⟨-, -, record, reason, he⟩ | ⟨hh, -, row, schema, record, -, he⟩
    · rw [he]
      exact h.frame rfl (by simp) (by simp) fun _ => List.Sublist.refl _
    · rw [he]
      refine h.haltYield rfl fun k => ?_
      rw [expectedAt_of_unhealthy rfl]
      exact List.nil_sublist _
    · rw [he]
      refine h.pushYield rfl fun k => ?_
      rw [expectedAt_of_healthy (w := ((s.window.withSchema schema).acceptSeeded
        { s.io with record } position event row).1) hh, expectedAt_of_healthy hh,
        acceptSeeded_getElem?]
      split
      · rename_i hk
        rw [hk]
        change ((seededGroup (s.window.pending[position.block]?) position row).expected).Sublist _
        rcases s.window.pending[position.block]? with _ | p
        · exact List.Sublist.refl _
        · exact List.Sublist.refl _
      · exact List.Sublist.refl _

omit [RecordOps ρ E] in
/-- The end of the backfill writes the settled writer's last group. -/
theorem DeliveryInv.settle (h : DeliveryInv s) (hinv : BackfillInv seed cut tip depth s) :
    DeliveryInv s.settle := by
  unfold Pipeline.settle
  cases hh : s.settled.core.healthy with
  | false =>
    have : s.settled.finish s.io = (s.settled, s.io) := by simp [BlockWriter.finish, hh]
    rw [this]
    simp only [hh, Bool.false_eq_true, if_false]
    refine h.frame (t := ⟨_, _, _⟩) rfl (by simp) (by simp) fun k => ?_
    rw [expectedAt_of_unhealthy rfl]
    exact List.nil_sublist _
  | true =>
    have hset := hinv.settled hh
    have hstep := BlockWriter.finish_finished s.settled s.io hset.schema
    generalize s.settled.finish s.io = r at hstep
    -- the window expects nothing new from the watermark of the settled writer
    have habsorb : ∀ (position : Option BlockPosition) k,
        ((s.window.absorb position).expectedAt k).Sublist (s.window.expectedAt k) := by
      intro position k
      unfold expectedAt
      rw [absorb_core, absorb_pending]
    cases hstep with
    | unhealthy hf => exact absurd hh (by simp [hf])
    | empty _ hcur =>
      simp only [hh, if_true]
      exact h.frame (t := ⟨_, _, _⟩) (List.append_nil _).symm (by simp) (by simp) (habsorb _)
    | write _ cur hcur schema hs e store hw =>
      simp only [BlockWriter.halted, Bool.false_eq_true, if_false]
      refine h.frame (t := ⟨_, _, _⟩) (List.append_assoc _ _ _) ?_ (by simp) fun k => ?_
      · rw [← List.append_assoc, held_concat_halted, held_concat_halted]
      · rw [expectedAt_of_unhealthy rfl]
        exact List.nil_sublist _
    | wrote _ cur hcur schema hs store hw =>
      have hhealthy : (s.settled.closed cur).core.healthy = true := hh
      simp only [hhealthy, if_true]
      refine h.frame (t := ⟨_, _, _⟩) rfl (by simp) (fun w p rows hm => ?_) (habsorb _)
      simp only [List.mem_singleton, Effect.wrote.injEq] at hm
      obtain ⟨-, rfl, rfl⟩ := hm
      exact hset.buffer p hcur

/-- No step changes the confirmation depth. -/
theorem liveStep_depth (s : Pipeline σ ρ BlockPosition E) (item : Indexed BlockPosition E) :
    (s.liveStep item).window.depth = s.window.depth := by
  rcases item with ⟨position, event⟩ | position
  · rw [Pipeline.liveStep_event]
    rcases s.window.record_cases rfl s.io position event with
      ⟨-, he⟩ | ⟨-, -, he⟩ | ⟨-, -, _, _, -, he⟩ | ⟨-, -, _, _, _, w', io', _, -, ha, he⟩
    · rw [he]
    · rw [he]
      rfl
    · rw [he]
      rfl
    · obtain ⟨_, -, hfl⟩ := w'.flushMatured_spec io' (by
        rw [ha.core]
        exact fun _ _ _ => rfl)
      rw [he]
      exact hfl.depth.trans ha.depth
  · rw [Pipeline.liveStep_retract]
    rcases s.window.retract_cases rfl s.io position with ⟨-, he⟩ | ⟨-, -, he⟩ | ⟨-, -, he⟩ <;>
      rw [he] <;> rfl

omit [RecordOps ρ E] in
theorem settle_depth (s : Pipeline σ ρ BlockPosition E) :
    s.settle.window.depth = s.window.depth := by
  cases hh : (s.settled.finish s.io).1.core.healthy with
  | true =>
    rw [s.settle_of_healthy hh]
    rcases (s.settled.finish s.io).1.watermark with _ | p <;> rfl
  | false =>
    rw [s.settle_of_unhealthy hh]
    rfl

omit [Store σ BlockPosition] [RecordOps ρ E] in
theorem DeliveryInv.start (store : σ) (record : ρ) :
    DeliveryInv (E := E) (Pipeline.start store record depth cut seed) := by
  refine ⟨Always.nil, [], Delivered.nil, fun k => ?_⟩
  have hexp : (Pipeline.start (E := E) store record depth cut seed).window.expectedAt k = [] := by
    simp [expectedAt, Pipeline.start, ConfirmationWindow.new]
  rw [hexp]
  exact List.Subperm.refl _

/-- The invariant along a whole subscription. -/
theorem delivery_persistAndEmit (backfill : List (BlockPosition × E))
    (live : List (Indexed BlockPosition E)) (store : σ) (record : ρ)
    (hbury : ∀ k, (∀ c ∈ cut, c < k) → k ≤ tip → tip < saturatingAdd u64Max k depth)
    (hdepth : 0 < depth) (htip : ∀ item ∈ backfill, item.1.block ≤ tip)
    (hseed : ∀ item ∈ backfill, ∀ p ∈ seed, p.block < item.1.block)
    (hmax : ∀ p e, .event p e ∈ live → p.block < u64Max) :
    DeliveryInv (persistAndEmit backfill live store record depth cut seed) := by
  have hback := foldl_preserves (l := backfill) (f := Pipeline.backfillStep cut)
    (b := Pipeline.start store record depth cut seed)
    (fun s : Pipeline σ ρ BlockPosition E => BackfillInv seed cut tip depth s ∧ DeliveryInv s)
    ⟨BackfillInv.start store record, DeliveryInv.start store record⟩ fun s item hm h =>
      ⟨h.1.step hbury (htip item hm) (hseed item hm), h.2.backfillStep h.1 hbury (htip item hm)⟩
  obtain ⟨hinv, hdel⟩ := hback
  have hlive := foldl_preserves (l := live) (f := Pipeline.liveStep)
    (b := (backfill.foldl (Pipeline.backfillStep cut)
      (Pipeline.start store record depth cut seed)).settle)
    (fun s : Pipeline σ ρ BlockPosition E => LiveInv seed s ∧ s.window.depth = depth ∧
      DeliveryInv s)
    ⟨hinv.settle, (settle_depth _).trans hinv.depth_eq, hdel.settle hinv⟩ fun s item hm h =>
      ⟨h.1.liveStep item, (liveStep_depth s item).trans h.2.1, h.2.2.liveStep h.1 hdepth h.2.1
        fun p e he => hmax p e (he ▸ hm)⟩
  exact hlive.2.2

end Step

end ArtemisLight
