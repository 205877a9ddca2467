import ArtemisLight.Persistence.Writer.Equiv.Backfill
import ArtemisLight.Persistence.Writer.Ledger

/-!
# The writers follow the ledger

While a block subscription is healthy, what its writers hold is the ledger of the source's reports
(`Tracks`): through the backfill, across the seam, and along every lawful live stream.
-/

namespace ArtemisLight

open ConfirmationWindow

variable {σ ρ E : Type}

/-! ### One live item -/

section Live

variable {seed : Option BlockPosition} [Store σ BlockPosition] [RecordOps ρ E]

/-- A live event either halts a healthy window, or is accepted, whereupon only buried groups are
flushed. -/
theorem LiveOk.event_cases {s : Pipeline σ ρ BlockPosition E} (hh : s.window.core.healthy = true)
    (h : LiveOk seed s.window s.io.effects) (position : BlockPosition) (event : E) :
    ((∃ r, (s.liveStep (.event position event)).io.effects
        = s.io.effects ++ [.halted .window r, .yielded event]) ∧
      (s.liveStep (.event position event)).window.core.healthy = false ∧
      ((∃ f ∈ s.window.flushed, position.block ≤ f) ∨
        ∃ e record, RecordOps.encode s.io.record event = (.error e, record))) ∨
    ((∀ f ∈ s.window.flushed, f < position.block) ∧
      ∃ row schema record w' io' delivered bs io'',
        RecordOps.encode s.io.record event = (.ok row, record) ∧
        Accepted (s.window.withSchema schema) { s.io with record } position event row w' io'
          delivered ∧
        LiveOk seed w' io'.effects ∧
        (∀ b ∈ bs, saturatingAdd u64Max b s.window.depth ≤ position.block) ∧
        Flush w' io' bs (s.liveStep (.event position event)).window io'' ∧
        (s.liveStep (.event position event)).io = io''.deliver position event delivered) := by
  rw [Pipeline.liveStep_event]
  rcases s.window.record_cases rfl s.io position event with
    ⟨hu, -⟩ | ⟨-, hf, he⟩ | ⟨-, -, e, record, hr, he⟩ |
    ⟨-, hf, row, schema, record, w', io', d, hr, ha, he⟩
  · -- of an event the window is told once: it halts on it, or it has accepted it
    exact absurd hu (by simp [hh])
  · refine Or.inl ⟨⟨.reobserved position s.window.depth, ?_⟩, ?_, Or.inl hf⟩
    · rw [he, h.buffered.writer]
      simp [Io.deliver]
    · rw [he]
      rfl
  · refine Or.inl ⟨⟨.encode e, ?_⟩, ?_, Or.inr ⟨e, record, hr⟩⟩
    · rw [he, h.buffered.writer]
      simp [Io.deliver]
    · rw [he]
      rfl
  · have hok : LiveOk seed w' io'.effects :=
      LiveOk.accepted ha (h.withSchema schema) hf rfl
    obtain ⟨bs, hbs, hfl⟩ := w'.flushMatured_spec io' hok.buffered.schema
    refine Or.inr ⟨hf, row, schema, record, w', io', d, bs, (w'.flushMatured io').2, hr, ha, hok,
      fun b hb => ?_, ?_, ?_⟩
    · obtain ⟨head, hhd, hle⟩ := hbs b hb
      rw [ha.head, Option.mem_def, Option.some.injEq] at hhd
      rw [ha.depth] at hle
      rw [← hhd] at hle
      exact hle
    · rw [he]
      exact hfl
    · rw [he]

end Live

/-! ### Following the ledger -/

/-- What a healthy window holds is the ledger.  The heights the live stream has not filled are still
the backfill's copy, at or below the head; the block being emitted is at the head and is not. -/
structure Tracks (L : Ledger E) (w : ConfirmationWindow BlockPosition)
    (effects : List (Effect BlockPosition E)) : Prop where
  events : ∀ k, heldEvents effects k = L.events k
  unfilled : ∀ k, L.next ≤ k → (∀ f ∈ w.flushed, f < k) → L.events k ≠ [] →
    w.seededAt k = true ∧ ∃ h ∈ w.head, k ≤ h
  opened : L.opened = true → ∃ key, L.next = key + 1 ∧ w.head = some key ∧ w.seededAt key = false

section Tracks

variable {L : Ledger E} {w : ConfirmationWindow BlockPosition} {io : Io σ ρ BlockPosition E}

theorem Tracks.withSchema {effects : List (Effect BlockPosition E)} (h : Tracks L w effects)
    (schema : TableSchema) : Tracks L (w.withSchema schema) effects :=
  ⟨h.events, h.unfilled, h.opened⟩

/-- Quiet effects and events passed downstream do not change what is held. -/
theorem Tracks.frame {effects effects' : List (Effect BlockPosition E)} (h : Tracks L w effects)
    (hk : held effects' = held effects) : Tracks L w effects' :=
  ⟨fun k => by rw [heldEvents, hk]; exact h.events k, h.unfilled, h.opened⟩

/-- From a height on that is not filled, the window holds nothing but the backfill's copies, which a
reorg or the first contact replaces. -/
theorem Tracks.heldEvents_eq_nil (h : Tracks L w effects) {key k : Nat} (hn : L.next ≤ key)
    (hf : ∀ f ∈ w.flushed, f < key) (hk : key ≤ k) (hreorg : w.reorgAt key = false)
    (hseeded : k = key → w.seededAt key = false) : heldEvents effects k = [] := by
  rw [h.events]
  by_contra hne
  obtain ⟨hsk, hd, hhd, hle⟩ :=
    h.unfilled k (by omega) (fun f hm => Nat.lt_of_lt_of_le (hf f hm) hk) hne
  rw [reorgAt, Option.mem_def.mp hhd] at hreorg
  have hdk : ¬ key < hd := by simpa using hreorg
  have hkey : k = key := by omega
  rw [hkey, hseeded hkey] at hsk
  exact absurd hsk (by simp)

section Accepts

variable {key : Nat} {event : E} {row : Row} {w' : ConfirmationWindow BlockPosition}
  {io' : Io σ ρ BlockPosition E} {delivered : Bool}

/-- An event at a height that is not filled begins its block anew. -/
theorem Tracks.accepted_first (ha : Accepted w io ⟨key⟩ event row w' io' delivered)
    (h : Tracks L w io.effects) (hn : L.next ≤ key) (hf : ∀ f ∈ w.flushed, f < key) :
    Tracks (L.step (.event ⟨key⟩ event)) w' io'.effects := by
  have hheld := ha.held
  have hseed := ha.seededAt
  have hhead := ha.head
  simp only [BlockPosition.sortKey_eq] at hheld hseed hhead
  simp only [Ledger.step, if_pos hn]
  refine ⟨fun k => ?_, fun k hk _ hne => ?_, fun _ => ⟨key, rfl, hhead, ?_⟩⟩
  · rw [heldEvents, hheld]
    by_cases hkk : k = key
    · subst hkk
      simp only [if_true]
      cases hr : w.reorgAt k
      · cases hs : w.seededAt k
        · have hnil := h.heldEvents_eq_nil hn hf (Nat.le_refl k) hr fun _ => hs
          simp [heldEvents] at hnil
          simp [hnil]
        · simp
      · simp
    · simp only [if_neg hkk, Ledger.truncate]
      by_cases hlt : k < key
      · rw [if_neg (by omega), if_pos hlt]
        exact h.events k
      · rw [if_neg hlt]
        cases hr : w.reorgAt key
        · simp only [Bool.false_eq_true, false_and, if_false]
          exact h.heldEvents_eq_nil hn hf (by omega) hr fun hc => absurd hc hkk
        · rw [if_pos ⟨rfl, by omega⟩]
          rfl
  · have hlt : key + 1 ≤ k := hk
    have hne' : (if k = key then [event] else Ledger.truncate L.events key k) ≠ [] := hne
    rw [if_neg (by omega), Ledger.truncate, if_neg (by omega)] at hne'
    exact absurd rfl hne'
  · rw [hseed]
    simp

/-- A further event of the open block joins its group. -/
theorem Tracks.accepted_further (ha : Accepted w io ⟨key⟩ event row w' io' delivered)
    (h : Tracks L w io.effects) (hn : ¬ L.next ≤ key) (hopen : L.opened = true)
    (hkey : key + 1 = L.next) : Tracks (L.step (.event ⟨key⟩ event)) w' io'.effects := by
  have hheld := ha.held
  have hseed := ha.seededAt
  have hhead := ha.head
  simp only [BlockPosition.sortKey_eq] at hheld hseed hhead
  obtain ⟨key', hnx, hhd, hsd⟩ := h.opened hopen
  obtain rfl : key' = key := by omega
  have hr : w.reorgAt key' = false := by simp [reorgAt, hhd]
  simp only [Ledger.step, if_neg hn]
  refine ⟨fun k => ?_, fun k hk hkf hne => ?_, fun _ => ⟨key', hnx, hhead, ?_⟩⟩
  · rw [heldEvents, hheld]
    simp only [hr, hsd, Bool.false_or, Bool.false_eq_true, if_false, false_and]
    by_cases hkk : k = key'
    · subst hkk
      rw [if_pos rfl, if_pos rfl, ← h.events]
      simp [heldEvents]
    · rw [if_neg hkk, if_neg hkk]
      exact h.events k
  · have hkk : k ≠ key' := by
      have : L.next ≤ k := hk
      omega
    have hne' : (if k = key' then L.events k ++ [event] else L.events k) ≠ [] := hne
    rw [if_neg hkk] at hne'
    rw [ha.flushed] at hkf
    obtain ⟨hs, b, hb, hle⟩ := h.unfilled k hk hkf hne'
    rw [hseed, hr]
    refine ⟨by simp [hkk, hs], key', hhead, ?_⟩
    rw [hhd, Option.mem_def, Option.some.injEq] at hb
    omega
  · rw [hseed]
    simp

end Accepts

/-- An accepted lawful event: the window and the ledger take the same step. -/
theorem Tracks.accepted {position : BlockPosition} {event : E} {row : Row}
    {w' : ConfirmationWindow BlockPosition} {io' : Io σ ρ BlockPosition E} {delivered : Bool}
    (ha : Accepted w io position event row w' io' delivered) (h : Tracks L w io.effects)
    (hl : L.Lawful (.event position event)) (hf : ∀ f ∈ w.flushed, f < position.block) :
    Tracks (L.step (.event position event)) w' io'.effects := by
  by_cases hn : L.next ≤ position.block
  · exact .accepted_first ha h hn hf
  · obtain ⟨hopen, hkey⟩ := hl.resolve_left hn
    exact .accepted_further ha h hn hopen hkey

/-- A retraction above the flushed mark: the window and the ledger take the same step. -/
theorem Tracks.rewound (h : Tracks L w io.effects) (position : BlockPosition)
    (hf : ∀ f ∈ w.flushed, f < position.block) :
    Tracks (L.step (.retract position)) { w.rewind position.block with
      head := w.head.map (min · (position.block - 1)) }
      (io.effects ++ [.rewound position.block]) := by
  obtain ⟨key⟩ := position
  simp only [Ledger.step]
  refine ⟨fun k => ?_, fun k hk hkf hne => ?_, fun hop => absurd hop (by simp)⟩
  · rw [heldEvents, held_concat_rewound]
    simp only [Ledger.truncate]
    by_cases hlt : k < key
    · rw [if_neg (by omega), if_pos hlt]
      exact h.events k
    · rw [if_pos (by omega), if_neg hlt]
      rfl
  · have hne' : Ledger.truncate L.events key k ≠ [] := hne
    have hmin : min L.next key ≤ k := hk
    rw [Ledger.truncate] at hne'
    split at hne'
    · rename_i hlt
      obtain ⟨hs, b, hb, hle⟩ := h.unfilled k (by omega) hkf hne'
      have := seededAt_rewind w key k
      refine ⟨?_, min b (key - 1), ?_, by omega⟩
      · rw [seededAt] at this ⊢
        simp [this, hlt, hs]
      · simp [Option.mem_def.mp hb]
    · exact absurd rfl hne'

/-- A flush does not disturb what the ledger says: it takes away groups at or below the new flushed
mark only. -/
theorem Tracks.flush {io' : Io σ ρ BlockPosition E} {w' : ConfirmationWindow BlockPosition}
    {bs : List Nat} (h : Tracks L w io.effects) (hfl : Flush w io bs w' io')
    (hh : w'.core.healthy = true) : Tracks L w' io'.effects := by
  have hsd := hfl.seededAt hh
  refine ⟨fun k => ?_, fun k hk hkf hne => ?_, fun hop => ?_⟩
  · obtain ⟨fl, he, hx⟩ := hfl.effects
    rw [heldEvents, he, held_append_of_quiet]
    · exact h.events k
    · intro x hxm
      rcases hx x hxm with ⟨b, -, p, -, rfl⟩ | ⟨e, rfl⟩ <;> trivial
  · have hkw : ∀ f ∈ w.flushed, f < k := by
      intro f hf
      obtain ⟨f', hf', hle⟩ := hfl.flushed_le f hf
      exact Nat.lt_of_le_of_lt hle (hkf f' hf')
    obtain ⟨hs, hb⟩ := h.unfilled k hk hkw hne
    rw [hfl.head]
    refine ⟨?_, hb⟩
    rw [hsd, hs, Bool.and_true, decide_eq_true_eq]
    intro hkb
    obtain ⟨p, hp, -⟩ := pending_of_seededAt hs
    obtain ⟨f, hf, hle⟩ := hfl.above hh k hkb p hp
    have := hkf f hf
    omega
  · obtain ⟨key, hn, hd, hs⟩ := h.opened hop
    exact ⟨key, hn, by rw [hfl.head]; exact hd, by rw [hsd, hs, Bool.and_false]⟩

end Tracks

/-! ### The live stream -/

section LiveRun

variable {seed : Option BlockPosition} [Store σ BlockPosition] [RecordOps ρ E]

/-- The invariant of the live stream, with the ledger. -/
structure LiveTracks (seed : Option BlockPosition) (depth : Nat) (L : Ledger E)
    (s : Pipeline σ ρ BlockPosition E) : Prop where
  live : LiveInv seed s
  depth_eq : s.window.depth = depth
  tracks : s.window.core.healthy = true → Tracks L s.window s.io.effects

variable {depth : Nat} {L : Ledger E} {s : Pipeline σ ρ BlockPosition E}

omit [Store σ BlockPosition] [RecordOps ρ E] in
theorem held_deliver (io : Io σ ρ BlockPosition E) (position : BlockPosition) (event : E)
    (delivered : Bool) : held (io.deliver position event delivered).effects = held io.effects := by
  cases delivered <;> simp [Io.deliver]

theorem LiveTracks.step (h : LiveTracks seed depth L s) {item : Indexed BlockPosition E}
    (hl : L.Lawful item) : LiveTracks seed depth (L.step item) (s.liveStep item) := by
  have hlive := h.live.liveStep item
  cases hh : s.window.core.healthy with
  | false =>
    -- an unhealthy window stays as it is
    have hw : (s.liveStep item).window = s.window := by
      rcases item with ⟨position, event⟩ | position
      · simp [Pipeline.liveStep_event, record, hh]
      · simp [Pipeline.liveStep_retract, retract, hh]
    exact ⟨hlive, by rw [hw]; exact h.depth_eq, fun hc => absurd hc (by simp [hw, hh])⟩
  | true =>
    have hok := h.live.2 hh
    rcases item with ⟨position, event⟩ | position
    · rcases hok.event_cases hh position event with
        ⟨-, hu, -⟩ | ⟨hf, row, schema, record, w', io', d, bs, io'', -, ha, -, -, hfl, hio⟩
      · refine ⟨hlive, ?_, fun hc => absurd hc (by simp [hu])⟩
        rw [Pipeline.liveStep_event] at hu ⊢
        rcases s.window.record_cases rfl s.io position event with
          ⟨-, he⟩ | ⟨-, -, he⟩ | ⟨-, -, _, _, -, he⟩ | ⟨-, -, _, _, _, w', io', _, -, ha, he⟩
        · rw [he]
          exact h.depth_eq
        · rw [he]
          exact h.depth_eq
        · rw [he]
          exact h.depth_eq
        · obtain ⟨_, -, hfl⟩ := w'.flushMatured_spec io' (by
            rw [ha.core]
            exact fun _ _ _ => rfl)
          rw [he]
          exact hfl.depth.trans (ha.depth.trans h.depth_eq)
      · refine ⟨hlive, hfl.depth.trans (ha.depth.trans h.depth_eq), fun hc => ?_⟩
        have ht : Tracks (L.step (.event position event)) w' io'.effects :=
          Tracks.accepted ha ((h.tracks hh).withSchema schema) hl hf
        refine (ht.flush hfl hc).frame ?_
        rw [hio, held_deliver]
    · rw [Pipeline.liveStep_retract] at hlive ⊢
      rcases s.window.retract_cases rfl s.io position with
        ⟨hu, -⟩ | ⟨-, -, he⟩ | ⟨-, hf, he⟩
      · exact absurd hu (by simp [hh])
      · exact ⟨hlive, by rw [he]; exact h.depth_eq, fun hc => absurd hc (by simp [he, halted])⟩
      · refine ⟨hlive, by rw [he]; exact h.depth_eq, fun _ => ?_⟩
        rw [he]
        exact (h.tracks hh).rewound position hf

omit [Store σ BlockPosition] [RecordOps ρ E] in
/-- Taking an event into the window writes nothing. -/
theorem ConfirmationWindow.Accepted.always {position : BlockPosition} {event : E} {row : Row}
    {w w' : ConfirmationWindow BlockPosition} {io io' : Io σ ρ BlockPosition E} {delivered : Bool}
    (ha : Accepted w io position event row w' io' delivered)
    {C : List (Effect BlockPosition E) → Effect BlockPosition E → Prop} (hC : Always C io.effects)
    (hquiet : ∀ past x, x.wrote? = none → C past x) : Always C io'.effects := by
  rw [ha.effects, List.append_assoc]
  refine hC.append_of_forall fun x hx past => hquiet past x ?_
  rw [List.mem_append, List.mem_singleton] at hx
  rcases hx with hx | rfl
  · split at hx
    · rw [List.mem_singleton.mp hx]
      rfl
    · split at hx
      · rw [List.mem_singleton.mp hx]
        rfl
      · exact absurd hx (by simp)
  · rfl

/-- The writes of one live step: whatever is written is buried under the event that came, and what
is held at that moment is the ledger with that event. -/
theorem LiveTracks.step_always (h : LiveTracks seed depth L s) {item : Indexed BlockPosition E}
    (hl : L.Lawful item) {C : List (Effect BlockPosition E) → Effect BlockPosition E → Prop}
    (hC : Always C s.io.effects) (hquiet : ∀ past x, x.wrote? = none → C past x)
    (hwrite : ∀ key e past p rows, item = .event ⟨key⟩ e →
      heldEvents past = (L.step item).events → saturatingAdd u64Max p.block depth ≤ key →
      C past (.wrote .window p rows)) :
    Always C (s.liveStep item).io.effects := by
  cases hh : s.window.core.healthy with
  | false =>
    rcases item with ⟨position, event⟩ | position
    · have : (s.liveStep (.event position event)).io = s.io.deliver position event true := by
        simp [Pipeline.liveStep_event, record, hh]
      rw [this]
      exact hC.concat (hquiet _ _ rfl)
    · have : (s.liveStep (.retract position : Indexed BlockPosition E)).io = s.io := by
        simp [Pipeline.liveStep_retract, retract, hh]
      rw [this]
      exact hC
  | true =>
    have hok := h.live.2 hh
    rcases item with ⟨position, event⟩ | position
    · rcases hok.event_cases hh position event with
        ⟨⟨r, he⟩, -⟩ | ⟨hf, row, schema, record, w', io', d, bs, io'', -, ha, hok', hbs, hfl, hio⟩
      · rw [he]
        exact hC.append_of_forall fun x hx past => hquiet past x (by
          rcases List.mem_cons.mp hx with rfl | hx
          · rfl
          · rw [List.mem_singleton.mp hx]
            rfl)
      · have ht : Tracks (L.step (.event position event)) w' io'.effects :=
          Tracks.accepted ha ((h.tracks hh).withSchema schema) hl hf
        obtain ⟨fl, hfe, hx⟩ := hfl.effects
        have hacc : Always C io'.effects := ha.always hC hquiet
        have hqt : ∀ x ∈ fl, x.Quiet := by
          intro x hxm
          rcases hx x hxm with ⟨b, -, p, -, rfl⟩ | ⟨e, rfl⟩ <;> trivial
        -- a flush writes the groups buried under the event, over what the ledger then says
        have hflush : Always C io''.effects := by
          rw [hfe]
          refine hacc.append fun past x rest hsplit => ?_
          rcases hx x (by rw [hsplit]; simp) with ⟨b, hb, p, hp, rfl⟩ | ⟨e, rfl⟩
          · rw [hok'.buffered.writer, (hok'.buffered.above b p hp).2]
            refine hwrite position.block event _ ⟨b⟩ _ rfl (funext fun k => ?_) ?_
            · rw [heldEvents, held_append_of_quiet _ fun y hy => hqt y (by rw [hsplit]; simp [hy])]
              exact ht.events k
            · rw [← h.depth_eq]
              exact hbs b hb
          · exact hquiet _ _ rfl
        rw [hio]
        exact hflush.concat (hquiet _ _ (by cases d <;> rfl))
    · -- a retraction writes nothing
      rw [Pipeline.liveStep_retract]
      rcases s.window.retract_cases rfl s.io position with
        ⟨hu, -⟩ | ⟨-, -, he⟩ | ⟨-, -, he⟩
      · exact absurd hu (by simp [hh])
      · rw [he]
        exact hC.concat (hquiet _ _ rfl)
      · rw [he]
        exact hC.concat (hquiet _ _ rfl)

/-- A whole live stream. -/
theorem LiveTracks.run (h : LiveTracks seed depth L s) {items : List (Indexed BlockPosition E)}
    (hl : L.LawfulFrom items) {C : List (Effect BlockPosition E) → Effect BlockPosition E → Prop}
    (hC : Always C s.io.effects) (hquiet : ∀ past x, x.wrote? = none → C past x)
    (hwrite : ∀ done key e rest past p rows, items = done ++ .event ⟨key⟩ e :: rest →
      heldEvents past = (L.run (done ++ [.event ⟨key⟩ e])).events →
      saturatingAdd u64Max p.block depth ≤ key → C past (.wrote .window p rows)) :
    LiveTracks seed depth (L.run items) (items.foldl Pipeline.liveStep s) ∧
      Always C (items.foldl Pipeline.liveStep s).io.effects := by
  refine foldl_invariant
    (fun done s => LiveTracks seed depth (L.run done) s ∧ Always C s.io.effects)
    ⟨h, hC⟩ fun done item rest s hsplit hI => ?_
  have hlaw : (L.run done).Lawful item := by
    rw [hsplit, Ledger.lawfulFrom_append] at hl
    exact hl.2.1
  have hrun : L.run (done ++ [item]) = (L.run done).step item := by
    rw [Ledger.run_append]
    rfl
  rw [hrun]
  refine ⟨hI.1.step hlaw, hI.1.step_always hlaw hI.2 hquiet fun key e past p rows hi hp hle => ?_⟩
  rw [hi] at hsplit hp
  refine hwrite done key e rest past p rows hsplit ?_ hle
  rw [hp, Ledger.run_append]
  rfl

end LiveRun

/-! ### The backfill -/

section BackfillRun

variable {seed : Option BlockPosition} {cut : Option Nat} {tip depth : Nat} [Store σ BlockPosition]
  [RecordOps ρ E]

/-- The invariant of the backfill, with the items done: each healthy writer holds its part of them,
and what the window holds is marked seeded. -/
structure BackfillTracks (seed : Option BlockPosition) (cut : Option Nat) (tip depth : Nat)
    (done : List (BlockPosition × E)) (s : Pipeline σ ρ BlockPosition E) : Prop where
  inv : BackfillInv seed cut tip depth s
  settled : s.settled.core.healthy = true → ∀ c ∈ cut, ∀ k ≤ c,
    heldEvents s.io.effects k = eventsAt done k
  window : s.window.core.healthy = true → ∀ k, (∀ c ∈ cut, c < k) →
    heldEvents s.io.effects k = eventsAt done k ∧
      (eventsAt done k ≠ [] → s.window.seededAt k = true ∧ ∃ h ∈ s.window.head, k ≤ h)
  seeded : s.window.core.healthy = true → ∀ (k : Nat) p, s.window.pending[k]? = some p →
    p.seeded = true

variable {done : List (BlockPosition × E)} {s : Pipeline σ ρ BlockPosition E}

omit [RecordOps ρ E] in
theorem heldEvents_accepted (effects : List (Effect BlockPosition E)) (writer : Writer)
    (position : BlockPosition) (event : E) (row : Row) (k : Nat) :
    heldEvents (effects ++ [.accepted writer position event row]) k
      = if k = position.block then heldEvents effects k ++ [event] else heldEvents effects k := by
  rw [heldEvents, held_concat_accepted, BlockPosition.sortKey_eq]
  split <;> simp [heldEvents]

/-- What a settled item does to what is held, as long as the settled writer stays healthy. -/
theorem settled_held (s : Pipeline σ ρ BlockPosition E) (position : BlockPosition)
    (event : E) :
    (∀ k, k ≠ position.block →
      heldEvents (s.settled.record s.io position event).2.1.effects k = heldEvents s.io.effects k) ∧
    ((s.settled.record s.io position event).1.core.healthy = true →
      s.settled.core.healthy = true ∧
      heldEvents (s.settled.record s.io position event).2.1.effects position.block
        = heldEvents s.io.effects position.block ++ [event]) := by
  have hstep := BlockWriter.record_recorded rfl s.settled s.io position event
  generalize s.settled.record s.io position event = r at hstep
  cases hstep with
  | unhealthy hh => exact ⟨fun _ _ => rfl, fun hc => absurd hc (by simp [hh])⟩
  | encode hh e record he =>
    exact ⟨by simp [heldEvents], fun hc => absurd hc (by simp [BlockWriter.halted])⟩
  | unordered hh row schema record he cur hcur hlt =>
    exact ⟨by simp [heldEvents], fun hc => absurd hc (by simp [BlockWriter.halted])⟩
  | write hh row schema record he cur hcur hlt e store hw =>
    exact ⟨by simp [heldEvents], fun hc => absurd hc (by simp [BlockWriter.halted])⟩
  | «extends» hh row schema record he hcur =>
    refine ⟨fun k hk => ?_, fun _ => ⟨hh, ?_⟩⟩
    · rw [Io.emit_effects, heldEvents_accepted, if_neg hk]
    · rw [Io.emit_effects, heldEvents_accepted, if_pos rfl]
  | advances hh row schema record he cur hcur hlt store hw =>
    refine ⟨fun k hk => ?_, fun _ => ⟨hh, ?_⟩⟩
    · rw [List.append_cons, heldEvents_accepted, if_neg hk]
      simp [heldEvents]
    · rw [List.append_cons, heldEvents_accepted, if_pos rfl]
      simp [heldEvents]

/-- An item at or below the cut goes to the settled writer. -/
theorem BackfillTracks.settled_step (h : BackfillTracks seed cut tip depth done s)
    {position : BlockPosition} (event : E) {c : Nat} (hc : c ∈ cut) (hle : position.block ≤ c)
    (hinv : BackfillInv seed cut tip depth (s.backfillStep cut (position, event))) :
    BackfillTracks seed cut tip depth (done ++ [(position, event)])
      (s.backfillStep cut (position, event)) := by
  rw [s.backfillStep_of_le event hc hle] at hinv ⊢
  obtain ⟨hother, hown⟩ := settled_held s position event
  refine ⟨hinv, fun hh c' hc' k hk => ?_, fun hh k hk => ?_, h.seeded⟩
  · obtain ⟨hold, hown⟩ := hown hh
    rw [heldEvents, held_deliver, eventsAt_concat]
    by_cases hkp : k = position.block
    · rw [if_pos hkp, hkp, ← heldEvents, hown, h.settled hold c hc _ hle]
    · rw [if_neg hkp, ← heldEvents, hother k hkp]
      exact h.settled hold c' hc' k hk
  · have := hk c hc
    rw [heldEvents, held_deliver, ← heldEvents, hother k (by omega), eventsAt_concat,
      if_neg (by simp only; omega)]
    exact h.window hh k hk

/-- An item above the cut that the window accepts seeds the group at its height. -/
theorem BackfillTracks.seeded_step (h : BackfillTracks seed cut tip depth done s)
    {position : BlockPosition} {event : E} (hlt : ∀ c ∈ cut, c < position.block)
    (hh : s.window.core.healthy = true) {row : Row} {schema : TableSchema} {record : ρ}
    (he : s.window.recordSeeded s.io position event
      = (((s.window.withSchema schema).acceptSeeded { s.io with record } position event row).1,
        ({ s.io with record } : Io σ ρ BlockPosition E).emit
          (.accepted .window position event row), true))
    (hinv : BackfillInv seed cut tip depth (s.backfillStep cut (position, event))) :
    BackfillTracks seed cut tip depth (done ++ [(position, event)])
      (s.backfillStep cut (position, event)) := by
  rw [s.backfillStep_of_lt event hlt] at hinv ⊢
  refine ⟨hinv, fun hs c hcm k hk => ?_, fun _ k hk => ?_, fun _ k p hp => ?_⟩
  · have hne : k ≠ position.block := by
      have := hlt c hcm
      omega
    rw [heldEvents, held_deliver, he, eventsAt_concat, if_neg hne, Io.emit_effects,
      ← heldEvents, heldEvents_accepted, if_neg hne]
    exact h.settled hs c hcm k hk
  · obtain ⟨hev, hsd⟩ := h.window hh k hk
    rw [heldEvents, held_deliver, he, eventsAt_concat, Io.emit_effects, ← heldEvents,
      heldEvents_accepted]
    refine ⟨by simp only [hev], fun hne' => ?_⟩
    simp only [seededAt_acceptSeeded, acceptSeeded_head, BlockPosition.sortKey_eq]
    have hhead : ∀ b ∈ s.window.head, b ≤ s.window.head.elim position.block
        (max · position.block) := by
      intro b hb
      rw [Option.mem_def.mp hb]
      exact Nat.le_max_left _ _
    by_cases hkp : k = position.block
    · refine ⟨?_, _, rfl, ?_⟩
      · rw [if_pos hkp, Bool.or_eq_true, Option.isNone_iff_eq_none]
        rcases hq : s.window.pending[position.block]? with _ | q
        · exact Or.inl hq
        · refine Or.inr ?_
          have := h.seeded hh _ q hq
          rw [hkp]
          simp [seededAt, withSchema, hq, this]
      · rcases hsh : s.window.head with _ | b
        · simp [withSchema, hsh, hkp]
        · simp [withSchema, hsh, hkp]
    · rw [if_neg hkp] at hne' ⊢
      obtain ⟨hsk, b, hb, hkb⟩ := hsd hne'
      exact ⟨hsk, _, rfl, Nat.le_trans hkb (hhead b hb)⟩
  · rw [he, acceptSeeded_getElem?] at hp
    split at hp
    · rw [← Option.some.inj hp]
      rcases hq : (s.window.withSchema schema).pending[Position.sortKey position]? with _ | q
      · rfl
      · exact h.seeded hh _ q hq
    · exact h.seeded hh k p hp

theorem BackfillTracks.step (h : BackfillTracks seed cut tip depth done s)
    (hbury : ∀ k, (∀ c ∈ cut, c < k) → k ≤ tip → tip < saturatingAdd u64Max k depth)
    {item : BlockPosition × E} (htip : item.1.block ≤ tip)
    (hs : ∀ p ∈ seed, p.block < item.1.block) :
    BackfillTracks seed cut tip depth (done ++ [item]) (s.backfillStep cut item) := by
  have hinv := h.inv.step hbury htip hs
  obtain ⟨position, event⟩ := item
  by_cases hc : ∃ c ∈ cut, position.block ≤ c
  · obtain ⟨c, hc, hle⟩ := hc
    exact h.settled_step event hc hle hinv
  · have hlt : ∀ c ∈ cut, c < position.block := fun c hcm =>
      Nat.lt_of_not_le fun hle => hc ⟨c, hcm, hle⟩
    have hne : ∀ c ∈ cut, ∀ k ≤ c, k ≠ position.block := fun c hcm k hk => by
      have := hlt c hcm
      omega
    have hstep := s.backfillStep_of_lt event hlt
    -- a window that halts, or has halted before, holds nothing new
    rcases h.inv.recordSeeded_cases hbury event hlt htip with
      ⟨hh, he⟩ | ⟨hh, -, record, reason, he⟩ | ⟨hh, hle, row, schema, record, -, he⟩
    · rw [hstep] at hinv ⊢
      refine ⟨hinv, fun hs c hcm k hk => ?_, fun hc => absurd hc (by simp [he, hh]),
        fun hc => absurd hc (by simp [he, hh])⟩
      rw [heldEvents, held_deliver, he, eventsAt_concat, if_neg (hne c hcm k hk)]
      exact h.settled hs c hcm k hk
    · rw [hstep] at hinv ⊢
      refine ⟨hinv, fun hs c hcm k hk => ?_, fun hc => absurd hc (by simp [he, halted]),
        fun hc => absurd hc (by simp [he, halted])⟩
      rw [heldEvents, held_deliver, he, eventsAt_concat, if_neg (hne c hcm k hk)]
      simp only [Io.emit_effects, held_concat_halted]
      exact h.settled hs c hcm k hk
    · exact h.seeded_step hlt hh he hinv

omit [Store σ BlockPosition] [RecordOps ρ E] in
/-- The open group is the group of an item that has been done. -/
theorem BackfillTracks.current_ne (h : BackfillTracks seed cut tip depth done s)
    (hh : s.settled.core.healthy = true) {cur : BlockPosition} (hcur : cur ∈ s.settled.current) :
    eventsAt done cur.block ≠ [] := by
  obtain ⟨c, hc, hle⟩ := (h.inv.settled hh).current_le cur hcur
  rw [← h.settled hh c hc _ hle]
  intro hnil
  refine (h.inv.settled hh).buffer_ne cur hcur ?_
  rw [(h.inv.settled hh).buffer cur hcur, heldRows, List.map_eq_nil_iff.mp hnil]
  rfl

/-- The writes of one backfill step: the open group, when an item of a later group comes. -/
theorem BackfillTracks.step_always (h : BackfillTracks seed cut tip depth done s)
    (hbury : ∀ k, (∀ c ∈ cut, c < k) → k ≤ tip → tip < saturatingAdd u64Max k depth)
    {item : BlockPosition × E} (htip : item.1.block ≤ tip)
    {C : List (Effect BlockPosition E) → Effect BlockPosition E → Prop}
    (hC : Always C s.io.effects) (hquiet : ∀ past x, x.wrote? = none → C past x)
    (hwrite : ∀ past p rows, p.block < item.1.block → (∃ c ∈ cut, item.1.block ≤ c) →
      (∀ c ∈ cut, ∀ k ≤ c, heldEvents past k = eventsAt done k) → eventsAt done p.block ≠ [] →
      C past (.wrote .settled p rows)) :
    Always C (s.backfillStep cut item).io.effects := by
  have hdel : ∀ (io : Io σ ρ BlockPosition E) position event delivered, Always C io.effects →
      Always C (io.deliver position event delivered).effects :=
        fun io position event delivered hio =>
    hio.concat (hquiet _ _ (by cases delivered <;> rfl))
  obtain ⟨position, event⟩ := item
  by_cases hc : ∃ c ∈ cut, position.block ≤ c
  · obtain ⟨c, hc, hle⟩ := hc
    rw [s.backfillStep_of_le event hc hle]
    refine hdel _ _ _ _ ?_
    have hstep := BlockWriter.record_recorded rfl s.settled s.io position event
    generalize s.settled.record s.io position event = r at hstep
    cases hstep with
    | unhealthy hh => exact hC
    | encode hh e record he => exact hC.concat (hquiet _ _ rfl)
    | unordered hh row schema record he cur hcur hlt => exact hC.concat (hquiet _ _ rfl)
    | write hh row schema record he cur hcur hlt e store hw => exact hC.concat (hquiet _ _ rfl)
    | «extends» hh row schema record he hcur => exact hC.concat (hquiet _ _ rfl)
    -- the group that is closed is below the event, and all of it has come
    | advances hh row schema record he cur hcur hlt store hw =>
      have hw : C s.io.effects (.wrote .settled cur s.settled.buffer) :=
        hwrite _ _ _ hlt ⟨c, hc, hle⟩ (h.settled hh) (h.current_ne hh hcur)
      rw [(h.inv.settled hh).writer, List.append_cons]
      exact (hC.concat hw).concat (hquiet _ _ rfl)
  · have hlt : ∀ c ∈ cut, c < position.block := fun c hcm =>
      Nat.lt_of_not_le fun hle => hc ⟨c, hcm, hle⟩
    rw [s.backfillStep_of_lt event hlt]
    refine hdel _ _ _ _ ?_
    rcases h.inv.recordSeeded_cases hbury event hlt htip with
      ⟨-, he⟩ | ⟨-, -, record, reason, he⟩ | ⟨-, -, row, schema, record, -, he⟩
    · rw [he]
      exact hC
    · rw [he]
      exact hC.concat (hquiet _ _ rfl)
    · rw [he]
      exact hC.concat (hquiet _ _ rfl)

omit [RecordOps ρ E] in
/-- The seam: the ledger starts as the snapshot the backfill delivered. -/
theorem BackfillTracks.settle (h : BackfillTracks seed cut tip depth done s) :
    LiveTracks seed depth (Ledger.snapshot done) s.settle := by
  -- at or below the cut the settled writer has the snapshot's blocks, above it the window has them
  have hseam : s.settled.core.healthy = true → s.window.core.healthy = true →
      ∀ watermark effects, held effects = held s.io.effects →
      Tracks (Ledger.snapshot done) (s.window.absorb watermark) effects := by
    intro hs hw watermark effects hheld
    refine ⟨fun k => ?_, fun k _ hk hne => ?_, fun hop => absurd hop (by simp [Ledger.snapshot])⟩
    · rw [heldEvents, hheld]
      by_cases hck : ∃ c ∈ cut, k ≤ c
      · obtain ⟨c, hc, hle⟩ := hck
        exact h.settled hs c hc k hle
      · exact (h.window hw k fun c hc => Nat.lt_of_not_le fun hle => hck ⟨c, hc, hle⟩).1
    · have hck : ∀ c ∈ cut, c < k := by
        intro c hc
        obtain ⟨f, hf, hcf⟩ := le_windowSeed_of_cut seed hc
        rw [← h.inv.flushed] at hf
        obtain ⟨f', hf', hff⟩ := absorb_flushed_le watermark hf
        have := hk f' hf'
        omega
      obtain ⟨hsd, b, hb, hle⟩ := (h.window hw k hck).2 hne
      refine ⟨?_, b, ?_, hle⟩
      · rw [seededAt, absorb_pending]
        exact hsd
      · rcases watermark with _ | p <;> exact hb
  refine ⟨h.inv.settle, ?_, fun hh => ?_⟩
  · cases hf : (s.settled.finish s.io).1.core.healthy with
    | true =>
      rw [s.settle_of_healthy hf]
      rcases (s.settled.finish s.io).1.watermark with _ | p <;> exact h.inv.depth_eq
    | false =>
      rw [s.settle_of_unhealthy hf]
      exact h.inv.depth_eq
  · cases hf : (s.settled.finish s.io).1.core.healthy with
    | true =>
      rw [s.settle_of_healthy hf] at hh ⊢
      have hs : s.settled.core.healthy = true := by
        by_contra hs
        have : s.settled.finish s.io = (s.settled, s.io) := by simp [BlockWriter.finish, hs]
        rw [this] at hf
        exact hs hf
      refine hseam hs (by simpa using hh) _ _ ?_
      have hstep := BlockWriter.finish_finished s.settled s.io (h.inv.settled hs).schema
      generalize s.settled.finish s.io = r at hstep
      cases hstep with
      | unhealthy _ => rfl
      | empty _ _ => rfl
      | write _ cur hcur schema hsc e store hw => simp
      | wrote _ cur hcur schema hsc store hw => simp
    | false =>
      rw [s.settle_of_unhealthy hf] at hh
      exact absurd hh (by simp [halt, failWith, GapFreeWriter.fail])

omit [RecordOps ρ E] in
theorem BackfillTracks.settle_always (h : BackfillTracks seed cut tip depth done s)
    {C : List (Effect BlockPosition E) → Effect BlockPosition E → Prop}
    (hC : Always C s.io.effects) (hquiet : ∀ past x, x.wrote? = none → C past x)
    (hwrite : ∀ past p rows, (∃ c ∈ cut, p.block ≤ c) →
      (∀ c ∈ cut, ∀ k ≤ c, heldEvents past k = eventsAt done k) → eventsAt done p.block ≠ [] →
      C past (.wrote .settled p rows)) :
    Always C s.settle.io.effects := by
  have hfin : Always C (s.settled.finish s.io).2.effects := by
    cases hs : s.settled.core.healthy with
    | false =>
      have : s.settled.finish s.io = (s.settled, s.io) := by simp [BlockWriter.finish, hs]
      rw [this]
      exact hC
    | true =>
      have hstep := BlockWriter.finish_finished s.settled s.io (h.inv.settled hs).schema
      generalize s.settled.finish s.io = r at hstep
      cases hstep with
      | unhealthy _ => exact hC
      | empty _ _ => exact hC
      | write _ cur hcur schema hsc e store hw => exact hC.concat (hquiet _ _ rfl)
      | wrote _ cur hcur schema hsc store hw =>
        refine hC.concat ?_
        rw [(h.inv.settled hs).writer]
        exact hwrite _ _ _ ((h.inv.settled hs).current_le cur hcur) (h.settled hs)
          (h.current_ne hs hcur)
  cases hf : (s.settled.finish s.io).1.core.healthy with
  | true =>
    rw [s.settle_of_healthy hf]
    exact hfin
  | false =>
    rw [s.settle_of_unhealthy hf]
    exact hfin.concat (hquiet _ _ rfl)

omit [Store σ BlockPosition] [RecordOps ρ E] in
theorem BackfillTracks.start (store : σ) (record : ρ) :
    BackfillTracks (E := E) seed cut tip depth [] (Pipeline.start store record depth cut seed) :=
  ⟨.start store record, fun _ _ _ _ _ => rfl, fun _ _ _ => ⟨rfl, fun hne => absurd rfl hne⟩,
    fun _ k p hp => absurd hp (by simp [Pipeline.start, ConfirmationWindow.new])⟩

/-- A whole subscription follows the ledger, and its writes are made at these moments: a settled
group when an item of a later settled group comes or at the end of the backfill, and a group of the
window when a live event buries it. -/
theorem persistAndEmit_tracks (backfill : List (BlockPosition × E))
    (live : List (Indexed BlockPosition E)) (store : σ) (record : ρ)
    (hbury : ∀ k, (∀ c ∈ cut, c < k) → k ≤ tip → tip < saturatingAdd u64Max k depth)
    (htip : ∀ item ∈ backfill, item.1.block ≤ tip)
    (hseed : ∀ item ∈ backfill, ∀ p ∈ seed, p.block < item.1.block)
    (hl : (Ledger.snapshot backfill).LawfulFrom live)
    {C : List (Effect BlockPosition E) → Effect BlockPosition E → Prop}
    (hquiet : ∀ past x, x.wrote? = none → C past x)
    (hsettled : ∀ done rest past p rows, backfill = done ++ rest → (∃ c ∈ cut, p.block ≤ c) →
      (∀ x ∈ rest.head?, p.block < x.1.block) →
      (∀ c ∈ cut, ∀ k ≤ c, heldEvents past k = eventsAt done k) → eventsAt done p.block ≠ [] →
      C past (.wrote .settled p rows))
    (hwindow : ∀ done key e rest past p rows, live = done ++ .event ⟨key⟩ e :: rest →
      heldEvents past = ((Ledger.snapshot backfill).run (done ++ [.event ⟨key⟩ e])).events →
      saturatingAdd u64Max p.block depth ≤ key → C past (.wrote .window p rows)) :
    LiveTracks seed depth ((Ledger.snapshot backfill).run live)
        (persistAndEmit backfill live store record depth cut seed) ∧
      Always C (persistAndEmit backfill live store record depth cut seed).io.effects := by
  have hback : BackfillTracks seed cut tip depth backfill
        (backfill.foldl (Pipeline.backfillStep cut) (.start store record depth cut seed)) ∧
      Always C (backfill.foldl (Pipeline.backfillStep cut)
        (.start store record depth cut seed)).io.effects := by
    refine foldl_invariant
      (fun done s => BackfillTracks seed cut tip depth done s ∧ Always C s.io.effects)
      ⟨.start store record, Always.nil⟩ fun done item rest s hsplit hI => ?_
    have hmem : item ∈ backfill := by rw [hsplit]; simp
    refine ⟨hI.1.step hbury (htip item hmem) (hseed item hmem),
      hI.1.step_always hbury (htip item hmem) hI.2 hquiet fun past p rows hlt hc hp hne => ?_⟩
    obtain ⟨c, hc, hle⟩ := hc
    refine hsettled done (item :: rest) past p rows hsplit ⟨c, hc, by omega⟩ (fun x hx => ?_) hp hne
    rw [List.head?_cons, Option.mem_def, Option.some.injEq] at hx
    rw [← hx]
    exact hlt
  exact hback.1.settle.run hl
    (hback.1.settle_always hback.2 hquiet fun past p rows hc hp hne =>
      hsettled backfill [] past p rows (by simp) hc (by simp) hp hne) hquiet hwindow

end BackfillRun

end ArtemisLight
