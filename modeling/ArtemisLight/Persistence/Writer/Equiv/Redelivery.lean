import ArtemisLight.Persistence.Writer.Equiv.Encoded
import ArtemisLight.Persistence.Writer.Equiv.Healthy

/-!
# Re-delivery in the overlap

Where the live stream overlaps the backfill it re-delivers, block by block, events that the backfill
has delivered.  `Awaits` says that the window awaits exactly the rows of these: each is suppressed
once, and every other live event is delivered.
-/

namespace ArtemisLight

open ConfirmationWindow

variable {σ ρ E : Type}

/-! ### Awaited rows -/

/-- The rows at a sort key that the live stream may re-deliver: those of the backfill's copy of the
group, or those that a group being rebuilt still expects. -/
def ConfirmationWindow.awaited (w : ConfirmationWindow BlockPosition) (k : Nat) : List Row :=
  (w.pending[k]?).elim [] fun p => if p.seeded then p.rows else p.expected

/-- Up to their order, `rows` are the rows of the events. -/
def RowsOf [RecordOps ρ E] (record : ρ) (events : List E) (rows : List Row) : Prop :=
  ∃ rows', rows.Perm rows' ∧
    List.Forall₂ (fun e row => RecordOps.encode record e = (.ok row, record)) events rows'

section RowsOf

variable [RecordOps ρ E] {record record' : ρ} {events : List E} {rows : List Row} {e : E}
  {row : Row}

theorem rowsOf_nil : RowsOf record ([] : List E) rows ↔ rows = [] := by
  constructor
  · rintro ⟨rows', hperm, hrows⟩
    obtain rfl := List.forall₂_nil_left_iff.mp hrows
    exact hperm.eq_nil
  · rintro rfl
    exact ⟨[], List.Perm.refl _, List.Forall₂.nil⟩

/-- A record that has encoded an event no longer changes. -/
theorem RowsOf.encode (h : RowsOf record events rows) {res : Except Error Row}
    (he : RecordOps.encode record e = (res, record')) : RowsOf record' events rows := by
  obtain ⟨rows', hperm, hrows⟩ := h
  refine ⟨rows', hperm, hrows.imp fun e' row' hrow => ?_⟩
  have hfrozen := RecordOps.encode_frozen hrow e
  rw [he] at hfrozen
  simp only at hfrozen
  rw [hfrozen]
  exact hrow

/-- The row of the next event is awaited, and the others stay. -/
theorem RowsOf.next (h : RowsOf record (e :: events) rows)
    (he : RecordOps.encode record e = (.ok row, record')) :
    row ∈ rows ∧ RowsOf record' events (rows.erase row) := by
  have hrest := h
  obtain ⟨rows', hperm, hrows⟩ := h
  obtain ⟨row', tail, hrow, htail, rfl⟩ := List.forall₂_cons_left_iff.mp hrows
  rw [hrow] at he
  obtain ⟨hrow', rfl⟩ := Prod.mk.inj he
  obtain rfl := Except.ok.inj hrow'
  refine ⟨hperm.symm.subset List.mem_cons_self, tail, ?_, htail⟩
  have herase := hperm.erase row'
  rwa [List.erase_cons_head] at herase

end RowsOf

/-! ### The overlap -/

/-- Of the heights that the rest of the live stream re-delivers, those in `lo..=hi` are awaited and
no others; and it rewinds nothing that it has emitted itself. -/
structure Awaits [RecordOps ρ E] (lo hi : Nat) (rest : List (BlockPosition × E))
    (w : ConfirmationWindow BlockPosition) (record : ρ) : Prop where
  rows : ∀ k, eventsAt rest k ≠ [] →
    RowsOf record (if lo ≤ k ∧ k ≤ hi then eventsAt rest k else []) (w.awaited k)
  ascending : (∀ (k : Nat) p, w.pending[k]? = some p → p.seeded = true) ∨
    ∀ h ∈ w.head, ∀ x ∈ rest, h ≤ x.1.block

section Window

variable [RecordOps ρ E] {lo hi : Nat} {rest : List (BlockPosition × E)}
  {w w' : ConfirmationWindow BlockPosition} {io io' : Io σ ρ BlockPosition E}
  {position : BlockPosition} {event : E} {row : Row} {record : ρ} {delivered : Bool}

omit [RecordOps ρ E] in
/-- What comes before the acceptance of an event a consumer does not see. -/
theorem ConfirmationWindow.Accepted.exists_mid
    (h : Accepted w io position event row w' io' delivered) :
    ∃ mid, (yields mid = [] ∧ accepts mid = []) ∧
      io'.effects = io.effects ++ mid ++ [.accepted .window position event row] := by
  refine ⟨_, ⟨?_, ?_⟩, h.effects⟩
  · split
    · rfl
    · split <;> rfl
  · split
    · rfl
    · split <;> rfl

omit [RecordOps ρ E] in
/-- A group that a live event is folded into is no longer the backfill's copy. -/
theorem baseAt_seeded {k : Nat} {p : Pending BlockPosition} (h : w.baseAt k = some p) :
    p.seeded = false := by
  unfold baseAt at h
  obtain ⟨q, -, hq⟩ := Option.bind_eq_some_iff.mp h
  cases hs : q.seeded with
  | true =>
    rw [hs, if_pos rfl] at hq
    rw [← Option.some.inj hq]
    rfl
  | false =>
    simp only [hs, Bool.false_eq_true, if_false] at hq
    split at hq
    · exact absurd hq (by simp)
    · rw [← Option.some.inj hq]
      exact hs

theorem Awaits.withSchema (h : Awaits lo hi rest w record) (schema : TableSchema) :
    Awaits lo hi rest (w.withSchema schema) record :=
  ⟨h.rows, h.ascending⟩

/-- A group that is not the backfill's copy is not rewound. -/
theorem Awaits.reorgAt (h : Awaits lo hi ((position, event) :: rest) w record) {k : Nat}
    {p : Pending BlockPosition} (hp : w.pending[k]? = some p) (hs : p.seeded = false) :
    w.reorgAt position.block = false := by
  rcases h.ascending with hall | hle
  · rw [hall k p hp] at hs
    exact absurd hs (by simp)
  · unfold ConfirmationWindow.reorgAt
    rcases hh : w.head with _ | b
    · rfl
    · have := hle b hh (position, event) List.mem_cons_self
      simp only [Option.any_some, decide_eq_false_iff_not]
      exact Nat.not_lt.mpr this

/-- The group of the next event expects what is awaited there. -/
theorem Awaits.base (h : Awaits lo hi ((position, event) :: rest) w record) :
    (w.baseAt position.block).elim [] Pending.expected = w.awaited position.block := by
  unfold baseAt awaited
  rcases hp : w.pending[position.block]? with _ | p
  · rfl
  · cases hs : p.seeded with
    | true => simp [hs, Pending.unseed]
    | false => simp [hs, h.reorgAt hp hs]

/-- A live event is suppressed exactly in the overlap. -/
theorem Awaits.verdict (h : Awaits lo hi ((position, event) :: rest) w record)
    {record' : ρ} (he : RecordOps.encode record event = (.ok row, record'))
    (ha : Accepted w io position event row w' io' delivered) :
    delivered = !decide (lo ≤ position.block ∧ position.block ≤ hi) := by
  have hrows := h.rows position.block (by simp [eventsAt])
  have hmem : delivered = false ↔ row ∈ w.awaited position.block := by
    rw [ha.delivered, ← h.base]
    simp only [BlockPosition.sortKey_eq]
    rcases w.baseAt position.block with _ | p <;> simp
  by_cases hin : lo ≤ position.block ∧ position.block ≤ hi
  · have hat : eventsAt ((position, event) :: rest) position.block
        = event :: eventsAt rest position.block := by
      simp [eventsAt]
    rw [if_pos hin, hat] at hrows
    rw [hmem.mpr (hrows.next he).1]
    simp [hin]
  · rw [if_neg hin, rowsOf_nil] at hrows
    have : delivered ≠ false := by
      rw [Ne, hmem, hrows]
      simp
    simp [hin, this]

/-- What is awaited above the event stays awaited. -/
theorem Awaits.awaited_of_lt (h : Awaits lo hi ((position, event) :: rest) w record)
    (ha : Accepted w io position event row w' io' delivered) {k : Nat} (hk : position.block < k) :
    w'.awaited k = w.awaited k := by
  unfold awaited
  rw [ha.pending, BlockPosition.sortKey_eq, if_neg (by omega)]
  split
  · rename_i hreorg
    rw [getElem?_rewind]
    rcases hp : w.pending[k]? with _ | p
    · rfl
    · cases hs : p.seeded with
      | true => simp [hs, Nat.le_of_lt hk, Pending.unseed]
      | false =>
        rw [h.reorgAt hp hs] at hreorg
        exact absurd hreorg (by simp)
  · rfl

/-- The rest of the live stream is awaited as before, but for the event that came. -/
theorem Awaits.accepted (h : Awaits lo hi ((position, event) :: rest) w record)
    (hsorted : ((position, event) :: rest).Pairwise fun x y => x.1.block ≤ y.1.block)
    {record' : ρ} (he : RecordOps.encode record event = (.ok row, record'))
    (ha : Accepted w io position event row w' io' delivered) :
    Awaits lo hi rest w' record' := by
  have hle := (List.pairwise_cons.mp hsorted).1
  refine ⟨fun k hne => ?_, Or.inr fun b hb x hx => ?_⟩
  · obtain ⟨e', he'⟩ := List.exists_mem_of_ne_nil _ hne
    have hk : position.block ≤ k := hle _ (mem_eventsAt.mp he')
    have hrows := h.rows k (by
      rw [← List.singleton_append, eventsAt_append]
      exact fun hnil => hne (List.append_eq_nil_iff.mp hnil).2)
    rcases Nat.lt_or_eq_of_le hk with hlt | rfl
    · rw [h.awaited_of_lt ha hlt]
      have hat : eventsAt ((position, event) :: rest) k = eventsAt rest k := by
        rw [← List.singleton_append, eventsAt_append, eventsAt_singleton, if_neg (by simp; omega)]
        rfl
      rw [hat] at hrows
      exact hrows.encode he
    · have hat : eventsAt ((position, event) :: rest) position.block
          = event :: eventsAt rest position.block := by
        simp [eventsAt]
      -- at the height of the event, its row is no longer awaited
      have hawaited : w'.awaited position.block
          = if row ∈ w.awaited position.block then
              swapRemove (w.awaited position.block) ((w.awaited position.block).idxOf row)
            else w.awaited position.block := by
        rw [← h.base]
        unfold awaited
        rw [ha.pending, BlockPosition.sortKey_eq, if_pos rfl]
        rcases hb : w.baseAt position.block with _ | p
        · simp [acceptedGroup]
        · have hs : p.seeded = false := baseAt_seeded hb
          simp only [acceptedGroup, Option.elim_some, hs, Bool.false_eq_true, if_false]
          rfl
      rw [hawaited]
      by_cases hin : lo ≤ position.block ∧ position.block ≤ hi
      · rw [if_pos hin, hat] at hrows
        obtain ⟨hmem, rows', hperm, htail⟩ := hrows.next he
        rw [if_pos hin, if_pos hmem]
        exact ⟨rows', (swapRemove_perm_erase hmem).trans hperm, htail⟩
      · rw [if_neg hin, rowsOf_nil] at hrows
        rw [if_neg hin, rowsOf_nil, hrows]
        simp
  · rw [ha.head, Option.mem_def, Option.some.injEq, BlockPosition.sortKey_eq] at hb
    rw [← hb]
    exact hle x hx

/-- A flush below the rest of the live stream takes away nothing that is awaited. -/
theorem Awaits.flush (h : Awaits lo hi rest w record) {bs : List Nat} (hfl : Flush w io bs w' io')
    (hh : w'.core.healthy = true) (hbs : ∀ b ∈ bs, ∀ x ∈ rest, b < x.1.block) :
    Awaits lo hi rest w' record := by
  obtain ⟨-, hpend⟩ := hfl.pending hh
  refine ⟨fun k hne => ?_, ?_⟩
  · obtain ⟨e', he'⟩ := List.exists_mem_of_ne_nil _ hne
    have hk : k ∉ bs := fun hkb => absurd (hbs k hkb _ (mem_eventsAt.mp he')) (Nat.lt_irrefl k)
    have hawaited : w'.awaited k = w.awaited k := by
      unfold awaited
      rw [hpend, if_neg hk]
    rw [hawaited]
    exact h.rows k hne
  · rw [hfl.head]
    refine h.ascending.imp (fun hall k p hp => ?_) id
    rw [hpend] at hp
    split at hp
    · exact absurd hp (by simp)
    · exact hall k p hp

end Window

/-! ### The live stream -/

section Live

variable [Store σ BlockPosition] [RecordOps ρ E] {seed : Option BlockPosition} {W : σ → Prop}
  {R : ρ → Prop} {D : E → Prop} {depth lo hi : Nat} {s : Pipeline σ ρ BlockPosition E}

/-- The events that the backfill of the heights `lo..=hi` has not delivered. -/
def outside (lo hi : Nat) (events : List (BlockPosition × E)) : List (BlockPosition × E) :=
  events.filter fun x => !decide (lo ≤ x.1.block ∧ x.1.block ≤ hi)

/-- One live event: it is accepted, and delivered unless the backfill has delivered it. -/
theorem Awaits.step (hW : Reliable BlockPosition W) (hR : Encodes D R) (h : Steady W R depth s)
    (hlive : LiveInv seed s) (hdepth : 0 < depth) {x : BlockPosition × E}
    {rest : List (BlockPosition × E)} (hawaits : Awaits lo hi (x :: rest) s.window s.io.record)
    (hsorted : (x :: rest).Pairwise fun x y => x.1.block ≤ y.1.block) (hD : D x.2)
    (hf : ∀ f ∈ s.window.flushed, f < x.1.block) (hmax : x.1.block < u64Max) :
    yields (s.liveStep (.event x.1 x.2)).io.effects
        = yields s.io.effects ++ (outside lo hi [x]).map Prod.snd ∧
      accepts (s.liveStep (.event x.1 x.2)).io.effects = accepts s.io.effects ++ [x] ∧
      Awaits lo hi rest (s.liveStep (.event x.1 x.2)).window
        (s.liveStep (.event x.1 x.2)).io.record := by
  obtain ⟨position, event⟩ := x
  obtain ⟨row, schema, record, w', io', d, bs, io'', henc, ha, -, hbs, hfl, hio⟩ :=
    h.accepted hW hR hdepth hlive hD hf hmax
  have hawaits := hawaits.withSchema schema
  -- whether the event is delivered is whether the window did not await it
  have hverdict := hawaits.verdict henc ha
  obtain ⟨fl, hfe, hx⟩ := hfl.effects
  have hquiet : ∀ x ∈ fl, x.Quiet := by
    intro x hxm
    rcases hx x hxm with ⟨b, -, p, -, rfl⟩ | ⟨e, rfl⟩ <;> trivial
  obtain ⟨mid, hmid, heffects⟩ := ha.exists_mid
  have hrecord : (s.liveStep (.event position event)).io.record = record := by
    rw [hio]
    exact hfl.record.trans ha.record
  refine ⟨?_, ?_, ?_⟩
  · have hlast : yields [if d then .yielded event else .suppressed position event]
        = (outside lo hi [(position, event)]).map Prod.snd := by
      rw [hverdict, outside, List.filter_singleton]
      cases decide (lo ≤ position.block ∧ position.block ≤ hi) <;> rfl
    rw [hio, Io.deliver, Io.emit_effects, hfe, heffects, yields_append, yields_append,
      yields_append, yields_append, yields_of_quiet hquiet, hmid.1, hlast]
    simp [yields, Effect.yielded?]
  · rw [hio, Io.deliver, Io.emit_effects, hfe, heffects, accepts_append, accepts_append,
      accepts_append, accepts_append, accepts_of_quiet hquiet, hmid.2]
    cases d <;> simp [accepts, Effect.accepted?]
  · rw [hrecord]
    have hhealthy := (h.event hW hR hD hf).1.window
    refine (hawaits.accepted hsorted henc ha).flush hfl hhealthy fun b hb x hxm => ?_
    exact Nat.lt_of_lt_of_le (hbs b hb) ((List.pairwise_cons.mp hsorted).1 x hxm)

/-- A live stream in order: the writers accept it whole, and deliver what the backfill has not. -/
theorem Awaits.run (hW : Reliable BlockPosition W) (hR : Encodes D R) (hdepth : 0 < depth)
    {rest : List (BlockPosition × E)} (hsorted : rest.Pairwise fun x y => x.1.block ≤ y.1.block)
    (hD : ∀ x ∈ rest, D x.2) (hmax : ∀ x ∈ rest, x.1.block < u64Max) (h : Steady W R depth s)
    (hlive : LiveInv seed s) (hawaits : Awaits lo hi rest s.window s.io.record)
    (hf : ∀ f ∈ s.window.flushed, ∀ x ∈ rest, f < x.1.block) :
    yields ((asLive rest).foldl Pipeline.liveStep s).io.effects
        = yields s.io.effects ++ (outside lo hi rest).map Prod.snd ∧
      accepts ((asLive rest).foldl Pipeline.liveStep s).io.effects
        = accepts s.io.effects ++ rest := by
  induction rest generalizing s with
  | nil => simp [asLive, outside]
  | cons x rest ih =>
    have hx : ∀ f ∈ s.window.flushed, f < x.1.block := fun f hfm => hf f hfm x (by simp)
    obtain ⟨hstep, hflushed⟩ := h.event hW hR (hD x (by simp)) hx
    obtain ⟨hyields, haccepts, hnext⟩ :=
      hawaits.step hW hR h hlive hdepth hsorted (hD x (by simp)) hx (hmax x (by simp))
    obtain ⟨hyields', haccepts'⟩ := ih (List.pairwise_cons.mp hsorted).2
      (fun y hy => hD y (by simp [hy])) (fun y hy => hmax y (by simp [hy])) hstep
      (hlive.liveStep _) hnext fun f hfm y hy => by
        rcases hflushed f hfm with hfm | hle
        · exact hf f hfm y (by simp [hy])
        · -- a group flushed by this event lies below it, and the later events do not
          have hxy := List.rel_of_pairwise_cons hsorted hy
          have hxmax := hmax x (by simp)
          unfold saturatingAdd at hle
          omega
    refine ⟨?_, ?_⟩
    · show yields ((asLive rest).foldl Pipeline.liveStep (s.liveStep (.event x.1 x.2))).io.effects
        = _
      rw [hyields', hyields, List.append_assoc, ← List.map_append, outside, outside, outside,
        ← List.filter_append, List.singleton_append]
    · show accepts ((asLive rest).foldl Pipeline.liveStep (s.liveStep (.event x.1 x.2))).io.effects
        = _
      rw [haccepts', haccepts, List.append_assoc, List.singleton_append]

end Live

/-! ### The backfill -/

section Backfill

variable [Store σ BlockPosition] [RecordOps ρ E] {seed : Option BlockPosition} {cut : Option Nat}
  {W : σ → Prop} {R : ρ → Prop} {D : E → Prop} {tip depth lo hi : Nat}
  {s : Pipeline σ ρ BlockPosition E}

/-- While the writers stay healthy a backfill event is accepted and delivered. -/
theorem Steady.backfillStep_delivers (h : Steady W R depth s)
    (hinv : BackfillInv seed cut tip depth s)
    (hbury : ∀ k, (∀ c ∈ cut, c < k) → k ≤ tip → tip < saturatingAdd u64Max k depth)
    {item : BlockPosition × E} (htip : item.1.block ≤ tip)
    (h' : Steady W R depth (s.backfillStep cut item)) :
    yields (s.backfillStep cut item).io.effects = yields s.io.effects ++ [item.2] ∧
      accepts (s.backfillStep cut item).io.effects = accepts s.io.effects ++ [item] := by
  obtain ⟨position, event⟩ := item
  by_cases hc : ∃ c ∈ cut, position.block ≤ c
  · obtain ⟨c, hc, hle⟩ := hc
    -- a step that halts would contradict the health of the writers after it
    have hsettled := h'.settled
    rw [s.backfillStep_of_le event hc hle] at hsettled ⊢
    have hstep := BlockWriter.record_recorded rfl s.settled s.io position event
    generalize s.settled.record s.io position event = r at hstep hsettled
    cases hstep with
    | unhealthy hh => exact absurd h.settled (by simp [hh])
    | encode _ e record hr => exact absurd hsettled (by simp [BlockWriter.halted])
    | unordered _ _ _ _ _ cur hcur hlt => exact absurd hsettled (by simp [BlockWriter.halted])
    | write _ _ schema _ _ cur _ _ e store hw =>
      exact absurd hsettled (by simp [BlockWriter.halted])
    | «extends» _ row schema record hr hcur =>
      simp only [Io.deliver, Io.emit_effects, yields_append, accepts_append, List.append_assoc]
      exact ⟨rfl, rfl⟩
    | advances _ row schema record hr cur hcur _ store hw =>
      simp only [Io.deliver, Io.emit_effects, yields_append, accepts_append, List.append_assoc]
      exact ⟨rfl, rfl⟩
  · have hlt : ∀ c ∈ cut, c < position.block := fun c hcm =>
      Nat.lt_of_not_le fun hle => hc ⟨c, hcm, hle⟩
    have hwindow := h'.window
    rw [s.backfillStep_of_lt event hlt] at hwindow ⊢
    rcases hinv.recordSeeded_cases hbury event hlt htip with
      ⟨hh, -⟩ | ⟨-, -, record, reason, he⟩ | ⟨-, -, row, schema, record, -, he⟩
    · exact absurd h.window (by simp [hh])
    · rw [he] at hwindow
      exact absurd hwindow (by simp [halted])
    · rw [he]
      simp only [Io.deliver, Io.emit_effects, yields_append, accepts_append, List.append_assoc]
      exact ⟨rfl, rfl⟩

omit [RecordOps ρ E] in
/-- At the end of the backfill a consumer sees nothing, and nothing is accepted. -/
theorem settle_quiet (hinv : BackfillInv seed cut tip depth s) :
    ∃ xs, (∀ x ∈ xs, x.Quiet) ∧ s.settle.io.effects = s.io.effects ++ xs := by
  have hfinish : ∃ xs, (∀ x ∈ xs, x.Quiet) ∧
      (s.settled.finish s.io).2.effects = s.io.effects ++ xs := by
    cases hh : s.settled.core.healthy with
    | false =>
      have : s.settled.finish s.io = (s.settled, s.io) := by simp [BlockWriter.finish, hh]
      rw [this]
      exact ⟨[], by simp, by simp⟩
    | true =>
      have hstep := BlockWriter.finish_finished s.settled s.io (hinv.settled hh).schema
      generalize s.settled.finish s.io = r at hstep
      cases hstep with
      | unhealthy _ => exact ⟨[], by simp, by simp⟩
      | empty _ _ => exact ⟨[], by simp, by simp⟩
      | write _ cur hcur schema hsc e store hw => exact ⟨[_], by simp [Effect.Quiet], rfl⟩
      | wrote _ cur hcur schema hsc store hw => exact ⟨[_], by simp [Effect.Quiet], rfl⟩
  obtain ⟨xs, hquiet, heffects⟩ := hfinish
  cases hf : (s.settled.finish s.io).1.core.healthy with
  | true =>
    rw [s.settle_of_healthy hf]
    exact ⟨xs, hquiet, heffects⟩
  | false =>
    rw [s.settle_of_unhealthy hf]
    refine ⟨xs ++ [_], fun x hx => ?_, by rw [← List.append_assoc, ← heffects]; rfl⟩
    rcases List.mem_append.mp hx with hx | hx
    · exact hquiet x hx
    · rw [List.mem_singleton.mp hx]
      trivial

/-- At the seam the window awaits the rows of its backfill groups. -/
theorem Awaits.settle {backfill : List (BlockPosition × E)}
    (h : BackfillTracks seed cut tip depth backfill s) (henc : Encoded s.io)
    (hh : s.window.core.healthy = true) (hh' : s.settle.window.core.healthy = true)
    {rest : List (BlockPosition × E)}
    (hagree : ∀ k, eventsAt rest k ≠ [] →
      eventsAt backfill k = if lo ≤ k ∧ k ≤ hi then eventsAt rest k else [])
    (hf : ∀ f ∈ s.settle.window.flushed, ∀ x ∈ rest, f < x.1.block) :
    Awaits lo hi rest s.settle.window s.settle.io.record := by
  have hlive := h.settle
  have hpending : s.settle.window.pending = s.window.pending := by
    cases hf : (s.settled.finish s.io).1.core.healthy with
    | true => rw [s.settle_of_healthy hf, absorb_pending]
    | false =>
      rw [s.settle_of_unhealthy hf] at hh'
      exact absurd hh' (by simp [halt, failWith, GapFreeWriter.fail])
  have hseeded : ∀ (k : Nat) p, s.settle.window.pending[k]? = some p → p.seeded = true := by
    rw [hpending]
    exact h.seeded hh
  refine ⟨fun k hne => ?_, Or.inl hseeded⟩
  obtain ⟨e, he⟩ := List.exists_mem_of_ne_nil _ hne
  have hawaited : s.settle.window.awaited k = heldRows s.settle.io.effects k := by
    rw [← (hlive.live.2 hh').buffered.rows k fun f hfm => hf f hfm _ (mem_eventsAt.mp he)]
    unfold awaited rowsAt
    rcases hp : s.settle.window.pending[k]? with _ | p
    · rfl
    · simp [hseeded k p hp]
  have hevents : heldEvents s.settle.io.effects k = eventsAt backfill k :=
    (hlive.tracks hh').events k
  rw [hawaited, ← hagree k hne, ← hevents]
  refine ⟨_, List.Perm.refl _, ?_⟩
  rw [List.forall₂_map_left_iff, List.forall₂_map_right_iff, List.forall₂_same]
  exact fun x hx => henc.settle.held (List.prefix_refl _) hx

/-- A live stream in order, above the stored position and the final cut, that agrees with the
backfill where they overlap: everything is accepted, and delivered once. -/
theorem overlap_persistAndEmit (hW : Reliable BlockPosition W) (hR : Encodes D R)
    (hdepth : 0 < depth) {store : σ} (hs : W store) {record : ρ} (hr : R record)
    {backfill live : List (BlockPosition × E)}
    (hbury : ∀ k, (∀ c ∈ cut, c < k) → k ≤ tip → tip < saturatingAdd u64Max k depth)
    (htip : ∀ x ∈ backfill, x.1.block ≤ tip)
    (hseed : ∀ x ∈ backfill, ∀ p ∈ seed, p.block < x.1.block)
    (hback : backfill.Pairwise fun x y => x.1.block ≤ y.1.block)
    (hsorted : live.Pairwise fun x y => x.1.block ≤ y.1.block)
    (hmax : ∀ x ∈ live, x.1.block < u64Max) (hD : ∀ x ∈ backfill ++ live, D x.2)
    (habove : ∀ x ∈ live, (∀ p ∈ seed, p.block < x.1.block) ∧ ∀ c ∈ cut, c < x.1.block)
    (hagree : ∀ k, eventsAt live k ≠ [] →
      eventsAt backfill k = if lo ≤ k ∧ k ≤ hi then eventsAt live k else []) :
    yields (persistAndEmit backfill (asLive live) store record depth cut seed).io.effects
        = backfill.map Prod.snd ++ (outside lo hi live).map Prod.snd ∧
      accepts (persistAndEmit backfill (asLive live) store record depth cut seed).io.effects
        = backfill ++ live := by
  have hDback : ∀ x ∈ backfill, D x.2 := fun x hx => hD x (List.mem_append_left _ hx)
  -- through the backfill, everything is delivered and accepted as it comes
  obtain ⟨hinv, hst, htracks, henc, hyields, haccepts⟩ := steady_backfill_rule hW hR hs hr hbury
    htip hDback hseed hback
    (I := fun done s => BackfillTracks seed cut tip depth done s ∧ Encoded s.io ∧
      yields s.io.effects = done.map Prod.snd ∧ accepts s.io.effects = done)
    ⟨.start store record, .start store record, rfl, rfl⟩
    fun done item rest s hsplit hinv hst hst' hI => by
      have hm : item ∈ backfill := by rw [hsplit]; simp
      obtain ⟨hy, ha⟩ := hst.backfillStep_delivers hinv hbury (htip item hm) hst'
      refine ⟨hI.1.step hbury (htip item hm) (hseed item hm), hI.2.1.backfillStep item, ?_, ?_⟩
      · rw [hy, hI.2.2.1, List.map_append]
        rfl
      · rw [ha, hI.2.2.2]
  obtain ⟨hsteady, hflushed, -⟩ := hst.settle hW hinv
  obtain ⟨xs, hquiet, hsettle⟩ := settle_quiet hinv
  have hf : ∀ f ∈ (backfill.foldl (Pipeline.backfillStep cut)
      (.start store record depth cut seed)).settle.window.flushed, ∀ x ∈ live, f < x.1.block := by
    intro f hfm x hx
    obtain ⟨g, hg, hfg⟩ := hflushed f hfm
    exact Nat.lt_of_le_of_lt hfg (lt_of_windowSeed hg (habove x hx).1 (habove x hx).2)
  -- from here on the live stream repeats what the window still awaits
  have hawaits := Awaits.settle htracks henc hst.window hsteady.window hagree hf
  obtain ⟨hy, ha⟩ := Awaits.run hW hR hdepth hsorted (fun x hx => hD x (List.mem_append_right _ hx))
    hmax hsteady htracks.settle.live hawaits hf
  unfold persistAndEmit
  rw [hy, ha, hsettle, yields_append, accepts_append, yields_of_quiet hquiet,
    accepts_of_quiet hquiet, hyields, haccepts]
  simp

end Backfill

end ArtemisLight
