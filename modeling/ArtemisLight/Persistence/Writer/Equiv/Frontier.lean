import ArtemisLight.Persistence.Writer.Equiv.Dedupe

/-!
# Deduplicating by frontier

A subscription to a frontier source keeps the tally, whatever the order of the instants and however
often each pair is reported: `Gathers` during the backfill, where the two writers share the instants
at the final cut, and `Follows` during the live stream.

* `tally_persistAndEmit`: the tally of a whole subscription, whatever fails.

In the backfill an event at or below the final cut goes to the settled writer (`settledStep`), which
accepts it (`settled_accepts`) after writing the group before it (`settled_writes`), or suppresses
it (`covered_settled`); one above it goes to the window (`windowStep`).  Then the settled writer's
last group is written (`settle`), and the window takes over (`absorb`), with a hole below it if that
writer has halted (`hole`).  A live event is `Follows.record`: it joins its group (`joining`), and
what has matured is flushed (`flushMatured`, `finalize`).
-/

namespace ArtemisLight

variable {σ ρ E : Type}

/-! ### The backfill -/

/-- A pipeline that has recorded a part of the backfill of a frontier source. -/
structure Gathers (stored : List TimeFrontier) (seed : Option TimeFrontier) (cut : Option Nat)
    (s : Pipeline σ ρ TimeFrontier E) : Prop where
  tally : Tally stored seed cut s.settled.watermark s.io.effects
  even : Even s.io.effects
  settledHalt : s.settled.core.healthy = false → ¬ Unhalted s.io.effects
  windowHalt : s.window.core.healthy = false → ¬ Unhalted s.io.effects
  settled : s.settled.core.healthy = true → HoldsOpen cut s.settled s.io.effects
  window : s.window.core.healthy = true →
    Buffers (fun k => ∀ c ∈ cut, c < k) s.window s.io.effects
  /-- The settled writer stays at or below the cut, unless it starts above it. -/
  low : s.settled.watermark = seed ∨ ∃ c ∈ cut, ∀ w ∈ s.settled.watermark, w.timeMs ≤ c
  start : s.window.watermark = startWatermark cut seed

namespace Gathers

variable {stored : List TimeFrontier} {seed : Option TimeFrontier} {cut : Option Nat}
  {s t : Pipeline σ ρ TimeFrontier E} {p : TimeFrontier} {e : E}

/-- A halted writer yields what it is given. -/
theorem yield_halted (h : Gathers stored seed cut s) (hu : ¬ Unhalted s.io.effects) (e : E) :
    Gathers stored seed cut { s with io := s.io.emit (.yielded e) } where
  tally := h.tally.silent rfl rfl fun hu' => absurd hu' hu
  even := .of_halted (not_unhalted_concat hu _)
  settledHalt _ := not_unhalted_concat hu _
  windowHalt _ := not_unhalted_concat hu _
  settled hh := (h.settled hh).silent rfl rfl
  window hh := (h.window hh).silent rfl rfl
  low := h.low
  start := h.start

/-- A known or passed pair is suppressed. -/
theorem suppress (h : Gathers stored seed cut s)
    (hp : p ∈ knownPairs stored s.io.effects ∨
      ∃ t, Attained seed cut s.io.effects t ∧ p.timeMs < t) (e : E) :
    Gathers stored seed cut { s with io := s.io.emit (.suppressed p e) } where
  tally := h.tally.silent rfl rfl hp
  even := h.even.suppressed p e
  settledHalt hh := not_unhalted_concat (h.settledHalt hh) _
  windowHalt hh := not_unhalted_concat (h.windowHalt hh) _
  settled hh := (h.settled hh).silent rfl rfl
  window hh := (h.window hh).silent rfl rfl
  low := h.low
  start := h.start

/-- The settled writer halts. -/
theorem settled_halts (h : Gathers stored seed cut s) {w : BlockWriter TimeFrontier}
    (hhealth : w.core.healthy = false) (hwm : w.watermark = s.settled.watermark) (store : σ)
    (record : ρ) (writer : Writer) (r : HaltReason TimeFrontier) :
    Gathers stored seed cut
      { s with settled := w, io := ⟨store, record, s.io.effects ++ [.halted writer r]⟩ } where
  tally := by
    rw [hwm]
    exact h.tally.silent rfl rfl trivial
  even := .of_halted (not_unhalted_halted _ _ _)
  settledHalt _ := not_unhalted_halted _ _ _
  windowHalt _ := not_unhalted_halted _ _ _
  settled hh := by
    rw [hhealth] at hh
    exact nomatch hh
  window hh := (h.window hh).silent rfl rfl
  low := by
    rw [hwm]
    exact h.low
  start := h.start

/-- What the settled writer does not cover is new. -/
theorem fresh_settled (h : Gathers stored seed cut s) (hh : s.settled.core.healthy = true)
    (hle : ∃ c ∈ cut, p.timeMs ≤ c) (hc : s.settled.covered p = false) :
    p ∉ knownPairs stored s.io.effects := by
  unfold BlockWriter.covered at hc
  obtain ⟨hwm, hcur⟩ := Bool.or_eq_false_iff.mp hc
  refine h.tally.fresh ((h.settled hh).group _ hle) (fun g hg => ?_) fun w hw => ?_
  · rcases hcurrent : s.settled.current with _ | cur
    · rw [BlockWriter.groupAt_of_none hcurrent] at hg
      exact nomatch hg
    · rw [BlockWriter.groupAt_of_current hcurrent] at hg
      rw [hcurrent, Option.any_some] at hcur
      split at hg
      · rename_i hkey
        obtain rfl := Option.some.inj hg
        rw [show decide (Position.sortKey cur = Position.sortKey p) = true from decide_eq_true hkey,
          Bool.true_and] at hcur
        exact hcur
      · exact nomatch hg
  · rw [Option.mem_def.mp hw, Option.any_some] at hwm
    exact hwm

/-- What the settled writer covers is known or passed. -/
theorem covered_settled (h : Gathers stored seed cut s) (hh : s.settled.core.healthy = true)
    (hle : ∃ c ∈ cut, p.timeMs ≤ c) (hp : ∃ i, p.seen = {i}) (hc : s.settled.covered p = true) :
    p ∈ knownPairs stored s.io.effects ∨
      ∃ t, Attained seed cut s.io.effects t ∧ p.timeMs < t := by
  unfold BlockWriter.covered at hc
  rcases Bool.or_eq_true_iff.mp hc with hc | hc
  · rcases hw : s.settled.watermark with _ | w
    · rw [hw] at hc
      exact nomatch hc
    · rw [hw, Option.any_some] at hc
      exact h.tally.marks.covered hw hc hp
  · rcases hcur : s.settled.current with _ | cur
    · rw [hcur] at hc
      exact nomatch hc
    · rw [hcur, Option.any_some] at hc
      obtain ⟨hkey, hc⟩ := Bool.and_eq_true_iff.mp hc
      have hgroup := (h.settled hh).group p.timeMs hle
      rw [BlockWriter.groupAt_of_current hcur, if_pos (show cur.timeMs = p.timeMs from
        of_decide_eq_true hkey)] at hgroup
      exact .inl (h.tally.known_of_group hgroup hc hp)

/-- A row joins the open group of the settled writer, or opens one, and its event is yielded. -/
theorem settled_accepts (h : Gathers stored seed cut s) (hh : s.settled.core.healthy = true)
    (hcur : ∀ cur ∈ s.settled.current, cur.timeMs = p.timeMs) (hle : ∃ c ∈ cut, p.timeMs ≤ c)
    (hfresh : p ∉ knownPairs stored s.io.effects) (hp : ∃ i, p.seen = {i}) (schema : TableSchema)
    (store : σ) (record : ρ) (e : E) (row : Row) :
    Gathers stored seed cut
      { s with
        settled := (s.settled.withSchema schema).pushed p row
        io := ⟨store, record, s.io.effects ++ [.accepted .settled p e row] ++ [.yielded e]⟩ } := by
  have hyield : Traced stored seed cut (s.io.effects ++ [.accepted .settled p e row])
      (.yielded e) :=
    h.even.traced_yield .settled p e row fun _ hx => absurd hx List.not_mem_nil
  have hsettles := h.settled hh
  -- the window has no part in an instant that the cut covers
  have hbelow : ¬ ∀ c ∈ cut, c < p.timeMs := by
    obtain ⟨c, hc, hle⟩ := hle
    exact fun hlt => Nat.not_lt.mpr hle (hlt c hc)
  have htime : (Position.advance s.settled.current p).timeMs = p.timeMs := by
    rcases hcurrent : s.settled.current with _ | cur
    · rfl
    · have hmax : (Position.advance (some cur) p).timeMs = max cur.timeMs p.timeMs :=
        LawfulPosition.sortKey_advance cur p
      rw [hmax, hcur cur hcurrent, Nat.max_self]
  have hgroup : ∀ k, (∃ c ∈ cut, k ≤ c) → GroupAt (s.io.effects ++ [.accepted .settled p e row]) k
      (((s.settled.withSchema schema).pushed p row).groupAt k) := by
    intro k hk
    rw [BlockWriter.groupAt_pushed schema row hsettles.empty hcur]
    split
    · rename_i heq
      subst heq
      exact (hsettles.group _ hle).accepted .settled e row
    · -- the open group was at the event's instant, if there was one
      rename_i hne
      have hnone : s.settled.groupAt k = none := by
        rcases hcurrent : s.settled.current with _ | cur
        · exact BlockWriter.groupAt_of_none hcurrent
        · rw [BlockWriter.groupAt_of_current hcurrent]
          exact if_neg fun heq => hne (heq.symm.trans (hcur cur hcurrent))
      have hold := hsettles.group k hk
      rw [hnone] at hold
      exact hold.accepted_of_ne hne .settled e row
  exact {
    tally := (h.tally.accepted .settled e row hfresh hp h.even).silent rfl rfl hyield
    even := .yielded hyield
    settledHalt := fun hh' => absurd hh' (by
      rw [show ((s.settled.withSchema schema).pushed p row).core.healthy = true from hh]
      decide)
    windowHalt := fun hh' => not_unhalted_concat (not_unhalted_concat (h.windowHalt hh') _) _
    settled := fun _ => ⟨fun k hk => (hgroup k hk).silent rfl rfl, fun cur hc => by
      obtain rfl := Option.some.inj hc
      rw [← htime] at hle
      exact hle, fun hnone => (nomatch hnone)⟩
    window := fun hh' => ((h.window hh').accepted_outside hbelow _ _ _).silent rfl rfl
    low := h.low
    start := h.start }

/-- The open group of the settled writer is written. -/
theorem settled_writes (h : Gathers stored seed cut s) (hh : s.settled.core.healthy = true)
    {cur : TimeFrontier} (hc : s.settled.current = some cur)
    (hlevel : level s.settled.watermark ≤ cur.timeMs) (store : σ) (writer : Writer) :
    Gathers stored seed cut
      { s with
        settled := s.settled.closed cur
        io := ⟨store, s.io.record, s.io.effects ++ [.wrote writer cur s.settled.buffer]⟩ } := by
  have hsettles := h.settled hh
  obtain ⟨c, hcut, hcurle⟩ := hsettles.inside cur hc
  have hgroup : Labelled (waiting s.io.effects cur.timeMs) cur.timeMs cur s.settled.buffer := by
    have hold := hsettles.group cur.timeMs ⟨c, hcut, hcurle⟩
    rw [BlockWriter.groupAt_of_current hc, if_pos rfl] at hold
    exact hold
  have hlow : (Position.advance s.settled.watermark cur).timeMs ≤ c := by
    have hmax : (Position.advance s.settled.watermark cur).timeMs
        = max (level s.settled.watermark) cur.timeMs := level_advance s.settled.watermark cur
    omega
  refine {
    tally := h.tally.wrote writer hgroup
    even := h.even.wrote writer cur _
    settledHalt := fun hh' => absurd hh' (by
      rw [show (s.settled.closed cur).core.healthy = true from hh]
      decide)
    windowHalt := fun hh' => not_unhalted_concat (h.windowHalt hh') _
    settled := fun _ => ⟨fun k hk => ?_, fun _ hnone => (nomatch hnone), fun _ => rfl⟩
    window := fun hh' =>
      (h.window hh').wrote_outside (fun hks => Nat.not_lt.mpr hcurle (hks c hcut)) _ _
    low := .inr ⟨c, hcut, fun v hv => Option.some.inj hv ▸ hlow⟩
    start := h.start }
  rw [BlockWriter.groupAt_of_none rfl]
  by_cases hkey : k = cur.timeMs
  · rw [hkey]
    exact GroupAt.wrote _ _ _ _
  · have hold := hsettles.group k hk
    rw [BlockWriter.groupAt_of_current hc, if_neg (Ne.symm hkey)] at hold
    exact hold.wrote_of_ne hkey _ _

section Step

variable [Store σ TimeFrontier] [RecordOps ρ E]

/-- One event at or below the final cut. -/
theorem settledStep (h : Gathers stored seed cut s) (hle : ∃ c ∈ cut, p.timeMs ≤ c)
    (hp : ∃ i, p.seen = {i}) (e : E)
    (hlevel : s.settled.core.healthy = true → ∀ cur ∈ s.settled.current,
      level s.settled.watermark ≤ cur.timeMs) :
    Gathers stored seed cut
      { s with
        settled := (s.settled.record s.io p e).1
        io := (s.settled.record s.io p e).2.1.deliver p e (s.settled.record s.io p e).2.2 } := by
  by_cases hcov : s.settled.core.healthy = true ∧ s.settled.covered p = true
  · rw [s.settled.record_covered s.io p e hcov.1 rfl hcov.2]
    exact h.suppress (h.covered_settled hcov.1 hle hp hcov.2) e
  · have hrec : BlockWriter.Recorded s.settled s.io p e (s.settled.record s.io p e) := by
      cases hh : s.settled.core.healthy with
      | false =>
        rw [show s.settled.record s.io p e = (s.settled, s.io, true) by
          simp [BlockWriter.record, hh]]
        exact .unhealthy hh
      | true => exact s.settled.record_uncovered s.io p e fun hc => hcov ⟨hh, hc.2⟩
    generalize s.settled.record s.io p e = r at hrec
    cases hrec with
    | unhealthy hh => exact h.yield_halted (h.settledHalt hh) e
    | encode hh reason record he =>
      exact (h.settled_halts (w := s.settled.halted s.settled.current) rfl rfl s.io.store record _
        _).yield_halted (not_unhalted_halted _ _ _) e
    | unordered hh row schema record he cur hc hlt =>
      exact (h.settled_halts (w := (s.settled.withSchema schema).halted s.settled.current) rfl rfl
        s.io.store record _ _).yield_halted (not_unhalted_halted _ _ _) e
    | write hh row schema record he cur hc hlt reason store hw =>
      exact (h.settled_halts (w := (s.settled.withSchema schema).halted none) rfl rfl store record _
        _).yield_halted (not_unhalted_halted _ _ _) e
    | «extends» hh row schema record he hc =>
      have hfresh := h.fresh_settled hh hle (Bool.eq_false_iff.mpr fun hc => hcov ⟨hh, hc⟩)
      exact h.settled_accepts hh hc hle hfresh hp schema s.io.store record e row
    | advances hh row schema record he cur hc hlt store hw =>
      -- the open group is written first
      have hfresh := h.fresh_settled hh hle (Bool.eq_false_iff.mpr fun hc => hcov ⟨hh, hc⟩)
      have hwritten := h.settled_writes hh hc (hlevel hh cur hc) store s.settled.core.writer
      have hknown : knownPairs stored (s.io.effects ++ [.wrote s.settled.core.writer cur
          s.settled.buffer]) = knownPairs stored s.io.effects := by
        rw [knownPairs, acceptedPositions, accepts_of_not_accepted _ rfl]
      have haccepted := hwritten.settled_accepts hh
        (fun _ hnone => absurd hnone (by simp [BlockWriter.closed])) hle
        (by rw [hknown]; exact hfresh) hp schema store record e row
      have heffects : s.io.effects ++ [.wrote s.settled.core.writer cur s.settled.buffer,
          .accepted .settled p e row] = s.io.effects ++ [.wrote s.settled.core.writer cur
          s.settled.buffer] ++ [.accepted .settled p e row] := by simp
      show Gathers stored seed cut { s with
        settled := ((s.settled.withSchema schema).closed cur).pushed p row
        io := ⟨store, record, _ ++ [.yielded e]⟩ }
      rw [heffects]
      exact haccepted

end Step

end Gathers

/-! ### The backfill tail -/

namespace Gathers

variable {stored : List TimeFrontier} {seed : Option TimeFrontier} {cut : Option Nat}
  {s : Pipeline σ ρ TimeFrontier E} {p : TimeFrontier}

/-- The window halts. -/
theorem window_halts (h : Gathers stored seed cut s) {w : ConfirmationWindow TimeFrontier}
    (hhealth : w.core.healthy = false) (hwm : w.watermark = s.window.watermark) (record : ρ)
    (writer : Writer) (r : HaltReason TimeFrontier) :
    Gathers stored seed cut
      { s with
        window := w
        io := ({ s.io with record } : Io σ ρ TimeFrontier E).emit (.halted writer r) } where
  tally := h.tally.silent rfl rfl trivial
  even := .of_halted (not_unhalted_halted _ _ _)
  settledHalt _ := not_unhalted_halted _ _ _
  windowHalt _ := not_unhalted_halted _ _ _
  settled hh := (h.settled hh).silent rfl rfl
  window hh := by
    rw [hhealth] at hh
    exact nomatch hh
  low := h.low
  start := hwm.trans h.start

/-- The watermark that the window starts from has seen nothing but stored pairs. -/
theorem startMarks (h : Gathers stored seed cut s)
    (hstart : Marks stored (Attained seed cut ([] : List (Effect TimeFrontier E)))
      (startWatermark cut seed)) :
    Marks (knownPairs stored s.io.effects) (Attained seed cut s.io.effects) s.window.watermark := by
  rw [h.start]
  exact hstart.mono (fun _ hq => List.mem_append_left _ hq) fun _ ht => ht.append s.io.effects

/-- What the window does not cover is new. -/
theorem fresh_window (h : Gathers stored seed cut s) (hh : s.window.core.healthy = true)
    (hcut : ∀ c ∈ cut, c < p.timeMs) (hc : s.window.covered p = false) :
    p ∉ knownPairs stored s.io.effects := by
  obtain ⟨hgroup, hwm⟩ := ConfirmationWindow.not_covered hc
  refine h.tally.fresh ((h.window hh).group _ hcut) hgroup fun w hw => ?_
  rcases h.low with hseed | ⟨c, hcm, hle⟩
  · -- the window started from what the settled writer still has
    rw [hseed] at hw
    cases hcw : Position.contains w p with
    | false => rfl
    | true =>
      rw [h.start] at hwm
      have hcovers : ∃ v ∈ startWatermark cut seed, Position.contains v p = true := by
        rw [Option.mem_def.mp hw]
        rcases cut with _ | c
        · exact ⟨w, rfl, hcw⟩
        · exact ⟨_, rfl, TimeFrontier.contains_advance_left hcw _⟩
      obtain ⟨v, hv, hcv⟩ := hcovers
      rw [hwm v hv] at hcv
      exact nomatch hcv
  · cases hcw : Position.contains w p with
    | false => rfl
    | true =>
      have hpw := LawfulPosition.le_of_contains w p hcw
      have hwc := hle w hw
      have hcp := hcut c hcm
      have hpw' : p.timeMs ≤ w.timeMs := hpw
      omega

variable [Store σ TimeFrontier] [RecordOps ρ E]

/-- One event above the final cut. -/
theorem windowStep (h : Gathers stored seed cut s)
    (hstart : Marks stored (Attained seed cut ([] : List (Effect TimeFrontier E)))
      (startWatermark cut seed))
    {depth hi : Nat} (hseeded : s.window.Seeded (startWatermark cut seed) cut depth hi)
    (hunripe : ConfirmationWindow.Unripe cut depth hi) (hcut : ∀ c ∈ cut, c < p.timeMs)
    (hlo : level (startWatermark cut seed) ≤ p.timeMs) (hhi : p.timeMs ≤ hi)
    (hp : ∃ i, p.seen = {i}) (e : E) :
    Gathers stored seed cut
      { s with
        window := (s.window.recordSeeded s.io p e).1
        io := (s.window.recordSeeded s.io p e).2.1.deliver p e
          (s.window.recordSeeded s.io p e).2.2 } := by
  have hjoins := s.window.recordSeeded_joins rfl s.io p e
  generalize s.window.recordSeeded s.io p e = r at hjoins
  cases hjoins with
  | unhealthy hh => exact h.yield_halted (h.windowHalt hh) e
  | covered hh hc =>
    exact h.suppress (ConfirmationWindow.known_of_covered h.tally (h.startMarks hstart)
      ((h.window hh).group _ hcut) hp hc) e
  | encode hh reason record =>
    exact (h.window_halts (w := s.window.halted) rfl rfl record _ _).yield_halted
      (not_unhalted_halted _ _ _) e
  | accepted hh hc row schema record =>
    have hfresh := h.fresh_window hh hcut hc
    have hyield : Traced stored seed cut (s.io.effects ++ [.accepted .window p e row])
        (.yielded e) :=
      h.even.traced_yield .window p e row fun _ hx => absurd hx List.not_mem_nil
    rw [(hseeded.joining hcut hlo hhi schema true row).flushMatured hunripe]
    exact {
      tally := (h.tally.accepted .window e row hfresh hp h.even).silent rfl rfl hyield
      even := .yielded hyield
      settledHalt := fun hh' =>
        not_unhalted_concat (not_unhalted_concat (h.settledHalt hh') _) _
      windowHalt := fun hh' => absurd hh' (by
        rw [show (s.window.joining schema true p row).core.healthy = true from hh]
        decide)
      settled := fun hh' => ((h.settled hh').accepted_above hcut _ _ _).silent rfl rfl
      window := fun _ => ((h.window hh).joining hcut schema true e row).silent rfl rfl
      low := h.low
      start := h.start }

/-- One item of the backfill. -/
theorem backfillStep (h : Gathers stored seed cut s)
    (hstart : Marks stored (Attained seed cut ([] : List (Effect TimeFrontier E)))
      (startWatermark cut seed))
    {depth hi : Nat} (hb : s.Backfilling seed cut depth hi)
    (hunripe : ConfirmationWindow.Unripe cut depth hi) {item : TimeFrontier × E}
    (hlo : level seed ≤ item.1.timeMs) (hhi : item.1.timeMs ≤ hi) (hp : ∃ i, item.1.seen = {i}) :
    Gathers stored seed cut (s.backfillStep cut item) := by
  obtain ⟨p, e⟩ := item
  by_cases hle : ∃ c ∈ cut, p.timeMs ≤ c
  · obtain ⟨c, hc, hpc⟩ := hle
    rw [s.backfillStep_of_le e hc hpc]
    exact h.settledStep ⟨c, hc, hpc⟩ hp e fun hh cur hcur => (hb.settled.current hh cur hcur).1
  · have hlt : ∀ c ∈ cut, c < p.timeMs := fun c hc => Nat.lt_of_not_le fun hpc => hle ⟨c, hc, hpc⟩
    rw [s.backfillStep_of_lt e hlt]
    refine h.windowStep hstart hb.window hunripe hlt ?_ hhi hp e
    rw [level_startWatermark]
    refine Nat.max_le.mpr ⟨hlo, ?_⟩
    cases hcut : cut with
    | none => exact Nat.zero_le _
    | some c => exact Nat.le_of_lt (hlt c hcut)

end Gathers

/-! ### The live stream -/

/-- A window that follows the live stream of a frontier source. -/
structure Follows (stored : List TimeFrontier) (seed : Option TimeFrontier) (cut : Option Nat)
    (w : ConfirmationWindow TimeFrontier) (effects : List (Effect TimeFrontier E)) : Prop where
  some_tally : ∃ wm, Tally stored seed cut wm effects
  tally : w.core.healthy = true → Tally stored seed cut w.watermark effects
  buffers : w.core.healthy = true → Buffers (fun _ => True) w effects
  halt : w.core.healthy = false → ¬ Unhalted effects

namespace Follows

variable {stored : List TimeFrontier} {seed : Option TimeFrontier} {cut : Option Nat}
  {w : ConfirmationWindow TimeFrontier} {effects : List (Effect TimeFrontier E)}
  {io : Io σ ρ TimeFrontier E} {p : TimeFrontier}

theorem silent (h : Follows stored seed cut w effects) {x : Effect TimeFrontier E}
    (ha : x.accepted? = none) (hw : x.wrote? = none) (hx : Traced stored seed cut effects x) :
    Follows stored seed cut w (effects ++ [x]) where
  some_tally := h.some_tally.imp fun _ ht => ht.silent ha hw hx
  tally hh := (h.tally hh).silent ha hw hx
  buffers hh := (h.buffers hh).silent ha hw
  halt hh := not_unhalted_concat (h.halt hh) _

theorem halted (h : Follows stored seed cut w effects) {v : ConfirmationWindow TimeFrontier}
    (hhealth : v.core.healthy = false) (writer : Writer) (r : HaltReason TimeFrontier) :
    Follows stored seed cut v (effects ++ [.halted writer r]) where
  some_tally := h.some_tally.imp fun _ ht => ht.silent rfl rfl trivial
  tally hh := absurd hh (by rw [hhealth]; decide)
  buffers hh := absurd hh (by rw [hhealth]; decide)
  halt _ := not_unhalted_halted _ _ _

/-- A group that is written is finalized. -/
theorem finalize (h : Follows stored seed cut w effects) (hh : w.core.healthy = true) {b : Nat}
    {pending : Pending TimeFrontier} (hp : w.pending[b]? = some pending) (writer : Writer) :
    Follows stored seed cut (w.finalize b pending)
      (effects ++ [.wrote writer pending.position pending.rows]) := by
  have hb := h.buffers hh
  have hgroup : Labelled (waiting effects b) b pending.position pending.rows := by
    have hg := hb.group b trivial
    unfold ConfirmationWindow.groupAt at hg
    rw [hp] at hg
    exact hg
  have htime := hgroup.time
  subst htime
  have htally := (h.tally hh).wrote writer hgroup
  refine ⟨⟨_, htally⟩, fun _ => htally,
    fun _ => ⟨fun k _ => ?_, fun k q hq => ?_, fun k q hq => ?_⟩,
    fun hh' => absurd hh' (by rw [show (w.finalize _ pending).core.healthy = true from hh]; decide)⟩
  · unfold ConfirmationWindow.groupAt
    rw [ConfirmationWindow.finalize, ConfirmationWindow.getElem?_erase]
    split
    · rename_i hk
      rw [hk]
      exact GroupAt.wrote _ _ _ _
    · rename_i hk
      exact (hb.group k trivial).wrote_of_ne hk _ _
  · exact hb.inside k q (ConfirmationWindow.finalize_getElem? k hq)
  · exact hb.schema k q (ConfirmationWindow.finalize_getElem? k hq)

variable [Store σ TimeFrontier]

/-- Flushing the matured groups writes or halts, and does nothing else. -/
theorem flushMatured (h : Follows stored seed cut w io.effects) (hh : w.core.healthy = true)
    (hs : w.core.schema.isSome) :
    Follows stored seed cut (w.flushMatured io).1 (w.flushMatured io).2.effects ∧
      ∃ xs, (w.flushMatured io).2.effects = io.effects ++ xs ∧ ∀ x ∈ xs, x.Quiet := by
  unfold ConfirmationWindow.flushMatured
  rcases w.head with _ | head
  · exact ⟨h, [], (List.append_nil _).symm, fun _ hx => absurd hx List.not_mem_nil⟩
  obtain ⟨schema, hs⟩ := Option.isSome_iff_exists.mp hs
  refine ConfirmationWindow.flushLoop_rule
    (I := fun w' io' _ => w'.core.healthy = true ∧ Follows stored seed cut w' io'.effects ∧
      ∃ xs : List (Effect TimeFrontier E), io'.effects = io.effects ++ xs ∧ ∀ x ∈ xs, x.Quiet)
    (J := fun w' io' => Follows stored seed cut w' io'.effects ∧
      ∃ xs : List (Effect TimeFrontier E), io'.effects = io.effects ++ xs ∧ ∀ x ∈ xs, x.Quiet)
    (fun w' io' b bs _ hI => hI) ?_ ?_ (fun w' io' hI => hI.2) (w.matured head) w io hs
    ⟨hh, h, [], (List.append_nil _).symm, fun _ hx => absurd hx List.not_mem_nil⟩
  · rintro w' io' b bs pending store hp ⟨hh', hf, xs, hxs, hquiet⟩ -
    refine ⟨hh', hf.finalize hh' hp _, xs ++ [.wrote w'.core.writer pending.position pending.rows],
      ?_, fun x hx => ?_⟩
    · rw [Io.emit_effects, hxs, List.append_assoc]
    · rcases List.mem_append.mp hx with hx | hx
      · exact hquiet x hx
      · rw [List.mem_singleton.mp hx]
        trivial
  · rintro w' io' b bs pending reason store hp ⟨hh', hf, xs, hxs, hquiet⟩ -
    refine ⟨hf.halted rfl _ _, xs ++ [.halted w'.core.writer (.write reason)], ?_, fun x hx => ?_⟩
    · rw [Io.emit_effects, hxs, List.append_assoc]
    · rcases List.mem_append.mp hx with hx | hx
      · exact hquiet x hx
      · rw [List.mem_singleton.mp hx]
        trivial

omit [Store σ TimeFrontier] in
/-- A row joins the group at its instant. -/
theorem joining (h : Follows stored seed cut w effects) (hh : w.core.healthy = true)
    (hfresh : p ∉ knownPairs stored effects) (hp : ∃ i, p.seen = {i}) (heven : Even effects)
    (schema : TableSchema) (e : E) (row : Row) :
    Follows stored seed cut (w.joining schema false p row)
      (effects ++ [.accepted .window p e row]) where
  some_tally := ⟨_, (h.tally hh).accepted .window e row hfresh hp heven⟩
  tally _ := (h.tally hh).accepted .window e row hfresh hp heven
  buffers _ := (h.buffers hh).joining trivial schema false e row
  halt hh' := absurd hh' (by
    rw [show (w.joining schema false p row).core.healthy = true from hh]
    decide)

/-- One live event. -/
theorem record [RecordOps ρ E] (h : Follows stored seed cut w io.effects) (heven : Even io.effects)
    (hp : ∃ i, p.seen = {i}) (e : E) :
    Follows stored seed cut (w.record io p e).1
        ((w.record io p e).2.1.deliver p e (w.record io p e).2.2).effects ∧
      Even ((w.record io p e).2.1.deliver p e (w.record io p e).2.2).effects := by
  have hjoins : ConfirmationWindow.Joins false w io p e (w.record io p e) := by
    cases hh : w.core.healthy with
    | false =>
      rw [show w.record io p e = (w, io, true) by simp [ConfirmationWindow.record, hh]]
      exact .unhealthy hh
    | true => exact w.record_joins rfl io p e fun q hq => ((h.buffers hh).inside _ q hq).2
  generalize w.record io p e = r at hjoins
  cases hjoins with
  | unhealthy hh =>
    have hu := h.halt hh
    exact ⟨h.silent rfl rfl fun hu' => absurd hu' hu, .of_halted (not_unhalted_concat hu _)⟩
  | covered hh hc =>
    have htally := h.tally hh
    exact ⟨h.silent rfl rfl (ConfirmationWindow.known_of_covered htally htally.marks
      ((h.buffers hh).group _ trivial) hp hc), heven.suppressed p e⟩
  | encode hh reason record =>
    have hu : ¬ Unhalted (io.effects ++ [.halted w.core.writer (.encode reason)]) :=
      not_unhalted_halted _ _ _
    exact ⟨(h.halted (v := w.halted) rfl _ _).silent rfl rfl fun hu' => absurd hu' hu,
      .of_halted (not_unhalted_concat hu _)⟩
  | accepted hh hc row schema record =>
    obtain ⟨hgroup, hwm⟩ := ConfirmationWindow.not_covered hc
    have hfresh := (h.tally hh).fresh ((h.buffers hh).group _ trivial) hgroup hwm
    have hjoining : Follows stored seed cut (w.joining schema false p row)
        (({ io with record } : Io σ ρ TimeFrontier E).emit (.accepted .window p e row)).effects :=
      h.joining hh hfresh hp heven schema e row
    obtain ⟨hflushed, xs, hxs, hquiet⟩ := hjoining.flushMatured hh rfl
    have hyield : Traced stored seed cut _ (.yielded e) :=
      heven.traced_yield .window p e row hquiet
    rw [Io.emit_effects, List.append_assoc, List.singleton_append] at hxs
    rw [← hxs] at hyield
    exact ⟨hflushed.silent rfl rfl hyield, .yielded hyield⟩

end Follows

/-! ### A whole subscription -/

namespace Gathers

variable {stored : List TimeFrontier} {seed : Option TimeFrontier} {cut : Option Nat}
  {s : Pipeline σ ρ TimeFrontier E}

theorem new (h : Tally stored seed cut seed ([] : List (Effect TimeFrontier E))) (store : σ)
    (record : ρ) (depth : Nat) :
    Gathers stored seed cut
      (Pipeline.start store record depth cut seed : Pipeline σ ρ TimeFrontier E) where
  tally := h
  even _ := rfl
  settledHalt hh := nomatch hh
  windowHalt hh := nomatch hh
  settled _ := ⟨fun _ _ => rfl, fun _ hnone => (nomatch hnone), fun _ => rfl⟩
  window _ := by
    have hnone : ∀ k : Nat, (ConfirmationWindow.new depth (startWatermark cut seed)).pending[k]?
        = none := fun k => Std.ExtTreeMap.getElem?_empty
    refine ⟨fun k _ => ?_, fun k q hq => ?_, fun k q hq => ?_⟩
    · unfold ConfirmationWindow.groupAt
      rw [show (Pipeline.start (ρ := ρ) (E := E) store record depth cut seed).window
        = ConfirmationWindow.new depth (startWatermark cut seed) from rfl, hnone]
      rfl
    · exact nomatch (hnone k).symm.trans hq
    · exact nomatch (hnone k).symm.trans hq
  low := .inl rfl
  start := rfl

/-- The settled prefix has a hole. -/
theorem hole (h : Gathers stored seed cut s) :
    Follows stored seed cut (s.window.halt s.io .settledHalted).1
        (s.window.halt s.io .settledHalted).2.effects ∧
      Even (s.window.halt s.io .settledHalted).2.effects :=
  ⟨⟨⟨_, h.tally.silent rfl rfl trivial⟩, fun hh => (nomatch hh), fun hh => (nomatch hh),
    fun _ => not_unhalted_halted _ _ _⟩, .of_halted (not_unhalted_halted _ _ _)⟩

/-- The window takes over from a settled writer that has nothing open. -/
theorem absorb (h : Gathers stored seed cut s)
    (hstart : Marks stored (Attained seed cut ([] : List (Effect TimeFrontier E)))
      (startWatermark cut seed))
    (hh : s.settled.core.healthy = true) (hc : s.settled.current = none) :
    Follows stored seed cut (s.window.absorb s.settled.watermark) s.io.effects := by
  have hmarks := h.startMarks hstart
  have hbuffers : s.window.core.healthy = true →
      Buffers (fun _ => True) s.window s.io.effects := by
    intro hw
    have hold := h.window hw
    refine ⟨fun k _ => ?_, fun k q hq => ⟨trivial, (hold.inside k q hq).2⟩, hold.schema⟩
    by_cases hk : ∀ c ∈ cut, c < k
    · exact hold.group k hk
    · -- at or below the cut neither writer holds anything
      have hle : ∃ c ∈ cut, k ≤ c := by
        simpa only [not_forall, Nat.not_lt, exists_prop] using hk
      have hnone : s.window.groupAt k = none := by
        unfold ConfirmationWindow.groupAt
        rcases hq : s.window.pending[k]? with _ | q
        · rfl
        · exact absurd (hold.inside k q hq).1 hk
      have hgroup := (h.settled hh).group k hle
      rw [BlockWriter.groupAt_of_none hc] at hgroup
      rw [hnone]
      exact hgroup
  -- the watermark of the settled writer, if there is one, is folded into the window's
  rcases hwm : s.settled.watermark with _ | v
  · have htally : Tally stored seed cut s.window.watermark s.io.effects :=
      h.tally.remark hmarks fun w hw => by
        rw [hwm] at hw
        exact nomatch hw
    exact ⟨⟨_, htally⟩, fun _ => htally, hbuffers, h.windowHalt⟩
  · have hsettled := h.tally.marks
    rw [hwm] at hsettled
    have htally : Tally stored seed cut (some (Position.advance s.window.watermark v))
        s.io.effects := by
      refine h.tally.remark (hmarks.advance (hsettled.exact v rfl) (hsettled.attained v rfl)) ?_
      intro w hw q hq
      rw [hwm] at hw
      obtain rfl := Option.some.inj hw
      exact ⟨_, rfl, TimeFrontier.contains_advance_right hq _⟩
    exact ⟨⟨_, htally⟩, fun _ => htally,
      fun hw => ⟨(hbuffers hw).group, (hbuffers hw).inside, (hbuffers hw).schema⟩, h.windowHalt⟩

/-- The end of the backfill. -/
theorem settle [Store σ TimeFrontier] (h : Gathers stored seed cut s)
    (hstart : Marks stored (Attained seed cut ([] : List (Effect TimeFrontier E)))
      (startWatermark cut seed))
    {depth hi : Nat} (hb : s.Backfilling seed cut depth hi) :
    Follows stored seed cut s.settle.window s.settle.io.effects ∧ Even s.settle.io.effects := by
  have hfin := s.settled.finish_finished s.io hb.settled.schema
  generalize hr : s.settled.finish s.io = r at hfin
  cases hfin with
  | unhealthy hh =>
    rw [s.settle_of_unhealthy (by rw [hr]; exact hh), hr]
    exact h.hole
  | empty hh hc =>
    rw [s.settle_of_healthy (by rw [hr]; exact hh), hr]
    exact ⟨h.absorb hstart hh hc, h.even⟩
  | write hh cur hc schema hs e store hw =>
    rw [s.settle_of_unhealthy (by rw [hr]; rfl), hr]
    exact (h.settled_halts (w := s.settled.halted none) rfl rfl store s.io.record _ _).hole
  | wrote hh cur hc schema hs store hw =>
    have hwritten := h.settled_writes hh hc (hb.settled.current hh cur hc).1 store
      s.settled.core.writer
    rw [s.settle_of_healthy (by rw [hr]; exact hh), hr]
    exact ⟨hwritten.absorb hstart hh rfl, hwritten.even⟩

end Gathers

/-- A subscription to a frontier source keeps the tally to its end. -/
theorem tally_persistAndEmit [Store σ TimeFrontier] [RecordOps ρ E] {stored : List TimeFrontier}
    {seed : Option TimeFrontier} {cut : Option Nat} {depth hi : Nat}
    (htally : Tally stored seed cut seed ([] : List (Effect TimeFrontier E)))
    (hunripe : ConfirmationWindow.Unripe cut depth hi) {backfill : List (TimeFrontier × E)}
    (hback : ∀ x ∈ backfill, level seed ≤ x.1.timeMs ∧ x.1.timeMs ≤ hi ∧ ∃ i, x.1.seen = {i})
    {live : List (Indexed TimeFrontier E)} (hlive : ∀ p e, .event p e ∈ live → ∃ i, p.seen = {i})
    (store : σ) (record : ρ) :
    (∃ wm, Tally stored seed cut wm
      (persistAndEmit backfill live store record depth cut seed).io.effects) ∧
      Even (persistAndEmit backfill live store record depth cut seed).io.effects := by
  have hstart : Marks stored (Attained seed cut ([] : List (Effect TimeFrontier E)))
      (startWatermark cut seed) := by
    have hmarks := htally.marks
    rw [knownPairs, acceptedPositions, accepts, List.filterMap_nil, List.map_nil,
      List.append_nil] at hmarks
    rcases cut with _ | c
    · exact hmarks
    · exact hmarks.advance (fun i hi => absurd hi (Finset.notMem_empty i)) (.inr (.inl rfl))
  obtain ⟨hgathers, hb⟩ : Gathers stored seed cut
        (backfill.foldl (Pipeline.backfillStep cut) (Pipeline.start store record depth cut seed)) ∧
      (backfill.foldl (Pipeline.backfillStep cut)
        (Pipeline.start store record depth cut seed)).Backfilling seed cut depth hi := by
    refine foldl_preserves (fun s => Gathers stored seed cut s ∧ s.Backfilling seed cut depth hi)
      ⟨.new htally store record depth, .start store record⟩ fun s x hx hs => ?_
    obtain ⟨hlo, hhi, hp⟩ := hback x hx
    exact ⟨hs.1.backfillStep hstart hs.2 hunripe hlo hhi hp, hs.2.backfillStep hunripe hlo hhi⟩
  obtain ⟨hfollows, heven⟩ : Follows stored seed cut
        (persistAndEmit backfill live store record depth cut seed).window
        (persistAndEmit backfill live store record depth cut seed).io.effects ∧
      Even (persistAndEmit backfill live store record depth cut seed).io.effects := by
    refine foldl_preserves (fun s : Pipeline σ ρ TimeFrontier E =>
      Follows stored seed cut s.window s.io.effects ∧ Even s.io.effects)
      (hgathers.settle hstart hb) fun s item hitem hs => ?_
    cases item with
    | event p e => exact hs.1.record hs.2 (hlive p e hitem) e
    | retract p =>
      -- a deduplicating source ignores retractions
      have hsame : s.window.retract s.io p = (s.window, s.io) := by
        unfold ConfirmationWindow.retract
        split
        · rfl
        · exact if_pos rfl
      rw [s.liveStep_retract, hsame]
      exact hs
  exact ⟨hfollows.some_tally, heven⟩

end ArtemisLight