import ArtemisLight.Persistence.Writer.Equiv.Groups
import ArtemisLight.Persistence.Writer.Pipeline

/-!
## A backfill that settles as a whole

When the final cut is the end of the range, every event goes through the block writer.  `Covers` is
what its watermark and its open group cover, and `Resumed` is what a consumer has received:
everything that the stored position does not cover.
-/

namespace ArtemisLight

variable {σ ρ P E : Type}

/-! ### Identities -/

/-- Positions folded together, from nothing. -/
def foldAll [Position P] (ps : List P) : Option P :=
  ps.foldl (fun w p => some (Position.advance w p)) none

theorem foldAll_concat [Position P] (ps : List P) (p : P) :
    foldAll (ps ++ [p]) = some (Position.advance (foldAll ps) p) := by
  unfold foldAll
  rw [List.foldl_append]
  rfl

/-- Positions at one sort key fold to a position there. -/
theorem sortKey_foldAll [Position P] [LawfulPosition P] {ps : List P} {k : Nat}
    (hps : ∀ q ∈ ps, Position.sortKey q = k) {w : P} (hw : foldAll ps = some w) :
    Position.sortKey w = k := by
  induction ps using List.reverseRecOn generalizing w with
  | nil => exact nomatch hw
  | append_singleton ps p ih =>
    have hp := hps p (by simp)
    rw [foldAll_concat] at hw
    obtain rfl := Option.some.inj hw
    rcases hfold : foldAll ps with _ | prev
    · rw [LawfulPosition.advance_none]
      exact hp
    · rw [LawfulPosition.sortKey_advance, ih (fun q hq => hps q (by simp [hq])) hfold, hp, max_self]

/-- On a deduplicating source every event has an identity of its own: the events before it at its
sort key, folded together in any way, do not cover it. -/
def Identified [Position P] (events : List (P × E)) : Prop :=
  Position.reobservation P = .dedupe → ∀ before x after, events = before ++ x :: after →
    ∀ ps : List P, (∀ q ∈ ps, q ∈ before.map Prod.fst ∧ Position.sortKey q = Position.sortKey x.1) →
      ∀ w ∈ foldAll ps, Position.contains w x.1 = false

theorem BlockPosition.identified (events : List (BlockPosition × E)) : Identified events :=
  fun h => absurd h (by decide)

/-- What a fold of frontiers has seen, one of them has. -/
theorem TimeFrontier.mem_seen_foldAll {ps : List TimeFrontier} {w : TimeFrontier}
    (hw : foldAll ps = some w) {i : String} (hi : i ∈ w.seen) : ∃ q ∈ ps, i ∈ q.seen := by
  induction ps using List.reverseRecOn generalizing w with
  | nil => exact nomatch hw
  | append_singleton ps p ih =>
    rw [foldAll_concat] at hw
    obtain rfl := Option.some.inj hw
    have hp : i ∈ p.seen → ∃ q ∈ ps ++ [p], i ∈ q.seen := fun h => ⟨p, by simp, h⟩
    rcases hfold : foldAll ps with _ | prev
    · rw [hfold] at hi
      exact hp hi
    · have hprev : i ∈ prev.seen → ∃ q ∈ ps ++ [p], i ∈ q.seen := by
        intro h
        obtain ⟨q, hq, hiq⟩ := ih hfold h
        exact ⟨q, List.mem_append_left _ hq, hiq⟩
      rw [hfold] at hi
      simp only [Position.advance] at hi
      split at hi
      · exact hp hi
      split at hi
      · exact hprev hi
      · rcases Finset.mem_union.mp hi with h | h
        · exact hprev h
        · exact hp h

/-- A frontier source that gives the events of one instant identities of their own. -/
theorem TimeFrontier.identified {events : List (TimeFrontier × E)}
    (hne : ∀ x ∈ events, x.1.seen.Nonempty)
    (hdisjoint : events.Pairwise fun x y => x.1.timeMs = y.1.timeMs → Disjoint x.1.seen y.1.seen) :
    Identified events := by
  intro _ before x after hevents ps hps w hw
  rw [Bool.eq_false_iff]
  intro hcontains
  have hx : x ∈ events := by rw [hevents]; simp
  obtain ⟨i, hi⟩ := hne x hx
  have hkey : w.timeMs = x.1.timeMs := sortKey_foldAll (fun q hq => (hps q hq).2) hw
  simp only [Position.contains, hkey, Nat.lt_irrefl, decide_false, Bool.false_or, decide_true,
    Bool.true_and, decide_eq_true_eq] at hcontains
  obtain ⟨q, hq, hiq⟩ := TimeFrontier.mem_seen_foldAll hw (hcontains hi)
  obtain ⟨hmem, hqx⟩ := hps q hq
  obtain ⟨y, hy, rfl⟩ := List.mem_map.mp hmem
  -- the fold and the event share an identity, so an event before it has it too
  rw [hevents, List.pairwise_append] at hdisjoint
  have hyx := hdisjoint.2.2 y hy x List.mem_cons_self hqx
  exact Finset.disjoint_left.mp hyx hiq hi

variable [Position P] [Store σ P] [RecordOps ρ E]

/-! ### One event -/

namespace BlockWriter

/-- One event of the backfill, recorded and delivered. -/
def settleOne (s : BlockWriter P × Io σ ρ P E) (x : P × E) : BlockWriter P × Io σ ρ P E :=
  ((s.1.record s.2 x.1 x.2).1,
    (s.1.record s.2 x.1 x.2).2.1.deliver x.1 x.2 (s.1.record s.2 x.1 x.2).2.2)

/-- What recording an event leaves behind: it writes at most the open group, and the group that is
open afterwards was open before or has the event in it. -/
structure Kept (w : BlockWriter P) (io : Io σ ρ P E) (position : P) (w' : BlockWriter P)
    (io' : Io σ ρ P E) : Prop where
  effects : ∃ xs, io'.effects = io.effects ++ xs ∧ yields xs = [] ∧
    ∀ g ∈ writes xs, ∃ cur ∈ w.current, g.1 = cur
  current : ∀ cur' ∈ w'.current, cur' ∈ w.current ∨ cur' = Position.advance none position ∨
    ∃ cur ∈ w.current, Position.sortKey cur = Position.sortKey position ∧
      cur' = Position.advance (some cur) position
  watermark : w'.watermark = w.watermark ∨ ∃ cur ∈ w.current,
    Position.sortKey cur < Position.sortKey position ∧
      w'.watermark = some (Position.advance w.watermark cur)

omit [Store σ P] [RecordOps ρ E] in
theorem Kept.refl (w : BlockWriter P) (io : Io σ ρ P E) (position : P) :
    Kept w io position w io where
  effects := ⟨[], (List.append_nil _).symm, rfl, fun _ hg => absurd hg List.not_mem_nil⟩
  current _ h := .inl h
  watermark := .inl rfl

omit [Store σ P] [RecordOps ρ E] in
/-- A writer that halts keeps the open group or drops it. -/
theorem Kept.of_halted {w w' : BlockWriter P} {io io' : Io σ ρ P E} {position : P}
    {writer : Writer} {reason : HaltReason P}
    (heffects : io'.effects = io.effects ++ [.halted writer reason])
    (hcurrent : ∀ cur' ∈ w'.current, cur' ∈ w.current) (hwatermark : w'.watermark = w.watermark) :
    Kept w io position w' io' where
  effects := ⟨_, heffects, rfl, fun _ hg => absurd hg List.not_mem_nil⟩
  current cur' h := .inl (hcurrent cur' h)
  watermark := .inl hwatermark

theorem record_kept (w : BlockWriter P) (io : Io σ ρ P E) (position : P) (event : E) :
    Kept w io position (w.record io position event).1 (w.record io position event).2.1 := by
  by_cases hP : Position.reobservation P = .dedupe ∧ w.covered position = true
  · have hsame : (w.record io position event).1 = w ∧ (w.record io position event).2.1 = io := by
      unfold record
      split
      · exact ⟨rfl, rfl⟩
      · exact ⟨rfl, rfl⟩
    rw [hsame.1, hsame.2]
    exact .refl w io position
  · have hrec := record_uncovered w io position event hP
    generalize w.record io position event = r at hrec
    cases hrec with
    | unhealthy hh => exact .refl w io position
    | encode hh e record he => exact .of_halted rfl (fun _ h => h) rfl
    | unordered hh row schema record he cur hc hlt =>
      exact .of_halted rfl (fun _ h => h) rfl
    | write hh row schema record he cur hc hlt e store hw =>
      exact .of_halted rfl (fun _ h => absurd h (by simp [halted])) rfl
    | «extends» hh row schema record he hc =>
      refine ⟨⟨[.accepted .settled position event row], rfl, rfl, fun g hg => ?_⟩,
        fun cur' h => .inr ?_, .inl rfl⟩
      · exact absurd hg List.not_mem_nil
      · obtain rfl : Position.advance w.current position = cur' := Option.some.inj h
        rcases hcur : w.current with _ | cur
        · exact .inl rfl
        · exact .inr ⟨cur, rfl, hc cur hcur, rfl⟩
    | advances hh row schema record he cur hc hlt store hw =>
      refine ⟨⟨_, rfl, rfl, fun g hg => ⟨cur, hc, ?_⟩⟩, fun cur' h => .inr (.inl ?_),
        .inr ⟨cur, hc, hlt, rfl⟩⟩
      · rw [List.mem_singleton.mp (show g ∈ [(cur, w.buffer)] from hg)]
      · exact (Option.some.inj h).symm

end BlockWriter

/-! ### What the writer covers -/

/-- What the watermark and the open group of a writer cover after the events `done`: the stored
position, which is at or below all of them, and groups that no further event can reach. -/
structure Covers (last : Option P) (done : List (P × E)) (w : BlockWriter P) : Prop where
  above : ∀ l ∈ last, ∀ x ∈ done, Position.sortKey l ≤ Position.sortKey x.1
  watermark : w.watermark = last ∨ ∃ wm, w.watermark = some wm ∧
    (∀ l ∈ last, Position.sortKey l ≤ Position.sortKey wm) ∧
    ∃ x ∈ done, Position.sortKey wm < Position.sortKey x.1
  current : ∀ cur ∈ w.current, ∃ ps, ps ≠ [] ∧ foldAll ps = some cur ∧
    ∀ q ∈ ps, q ∈ done.map Prod.fst ∧ Position.sortKey q = Position.sortKey cur

namespace Covers

variable {last : Option P} {done : List (P × E)} {w w' : BlockWriter P} {y : P × E}

omit [Store σ P] [RecordOps ρ E] in
theorem new (last : Option P) : Covers last ([] : List (P × E)) (BlockWriter.new last) where
  above _ _ _ hx := absurd hx List.not_mem_nil
  watermark := .inl rfl
  current _ h := nomatch h

omit [Store σ P] [RecordOps ρ E] in
/-- The open group is at the sort key of an event. -/
theorem current_mem (h : Covers last done w) {cur : P} (hcur : cur ∈ w.current) :
    ∃ x ∈ done, Position.sortKey x.1 = Position.sortKey cur := by
  obtain ⟨ps, hne, -, hps⟩ := h.current cur hcur
  obtain ⟨q, qs, rfl⟩ := List.exists_cons_of_ne_nil hne
  obtain ⟨hmem, hkey⟩ := hps q List.mem_cons_self
  obtain ⟨x, hx, rfl⟩ := List.mem_map.mp hmem
  exact ⟨x, hx, hkey⟩

variable [LawfulPosition P]

omit [Store σ P] [RecordOps ρ E] in
/-- What is covered is what the stored position covers. -/
theorem covered_eq (h : Covers last done w) (hP : Position.reobservation P = .dedupe)
    {rest : List (P × E)} (hid : Identified (done ++ y :: rest))
    (hle : ∀ x ∈ done, Position.sortKey x.1 ≤ Position.sortKey y.1) :
    w.covered y.1 = last.any (Position.contains · y.1) := by
  have hcurrent : (w.current.any fun c =>
      decide (Position.sortKey c = Position.sortKey y.1) && Position.contains c y.1) = false := by
    rcases hcur : w.current with _ | cur
    · rfl
    · obtain ⟨ps, -, hfold, hps⟩ := h.current cur hcur
      simp only [Option.any_some, Bool.and_eq_false_iff, decide_eq_false_iff_not]
      by_cases hkey : Position.sortKey cur = Position.sortKey y.1
      · right
        rw [hkey] at hps
        exact hid hP done y rest rfl ps hps cur hfold
      · exact .inl hkey
  unfold BlockWriter.covered
  rw [hcurrent, Bool.or_false]
  rcases h.watermark with hwm | ⟨wm, hwm, hlast, x, hx, hlt⟩
  · rw [hwm]
  · have hbelow := hle x hx
    rw [hwm, Groups.any_contains_eq_false (w := some wm), Groups.any_contains_eq_false]
    · intro l hl
      have := hlast l hl
      omega
    · intro w hw
      obtain rfl := Option.some.inj hw
      omega

omit [Store σ P] [RecordOps ρ E] in
theorem step (h : Covers last done w)
    (hlast : ∀ l ∈ last, Position.sortKey l ≤ Position.sortKey y.1)
    (hle : ∀ x ∈ done, Position.sortKey x.1 ≤ Position.sortKey y.1) {io io' : Io σ ρ P E}
    (hk : BlockWriter.Kept w io y.1 w' io') : Covers last (done ++ [y]) w' := by
  refine ⟨fun l hl x hx => ?_, ?_, ?_⟩
  · rcases List.mem_append.mp hx with hx | hx
    · exact h.above l hl x hx
    · rw [List.mem_singleton.mp hx]
      exact hlast l hl
  · rcases hk.watermark with hwm | ⟨cur, hcur, hlt, hwm⟩
    · rw [hwm]
      rcases h.watermark with h | ⟨wm, h₁, h₂, x, hx, h₃⟩
      · exact .inl h
      · exact .inr ⟨wm, h₁, h₂, x, List.mem_append_left _ hx, h₃⟩
    · -- the group that is written lies between the stored position and the event
      obtain ⟨x, hx, hxcur⟩ := h.current_mem hcur
      have hbetween : (∀ l ∈ last, Position.sortKey l ≤ Position.sortKey cur) := by
        intro l hl
        rw [← hxcur]
        exact h.above l hl x hx
      refine .inr ⟨_, hwm, ?_, y, by simp, ?_⟩
      · intro l hl
        have hlcur := hbetween l hl
        rcases hv : w.watermark with _ | v
        · rw [LawfulPosition.advance_none]
          exact hlcur
        · rw [LawfulPosition.sortKey_advance]
          exact hlcur.trans (Nat.le_max_right _ _)
      · rcases hv : w.watermark with _ | v
        · rw [LawfulPosition.advance_none]
          exact hlt
        · rw [LawfulPosition.sortKey_advance]
          apply Nat.max_lt.mpr ⟨?_, hlt⟩
          rcases h.watermark with hl | ⟨wm, hwm', -, z, hz, hlt'⟩
          · have := hbetween v (hl ▸ hv)
            omega
          · obtain rfl := Option.some.inj (hv.symm.trans hwm')
            have := hle z hz
            omega
  · -- the open group is the old one, one of the event alone, or the old one with the event
    intro cur' hcur'
    rcases hk.current cur' hcur' with hcur | rfl | ⟨cur, hcur, hkey, rfl⟩
    · obtain ⟨ps, hne, hfold, hps⟩ := h.current cur' hcur
      exact ⟨ps, hne, hfold, fun q hq => ⟨by simp [(hps q hq).1], (hps q hq).2⟩⟩
    · refine ⟨[y.1], by simp, rfl, fun q hq => ?_⟩
      rw [List.mem_singleton.mp hq, LawfulPosition.advance_none]
      exact ⟨by simp, rfl⟩
    · obtain ⟨ps, -, hfold, hps⟩ := h.current cur hcur
      have hadvance : Position.sortKey (Position.advance (some cur) y.1)
        = Position.sortKey cur := by
        rw [LawfulPosition.sortKey_advance, hkey, max_self]
      refine ⟨ps ++ [y.1], by simp, ?_, fun q hq => ?_⟩
      · rw [foldAll_concat, hfold]
      · rw [hadvance]
        rcases List.mem_append.mp hq with hq | hq
        · exact ⟨by simp [(hps q hq).1], (hps q hq).2⟩
        · rw [List.mem_singleton.mp hq]
          exact ⟨by simp, hkey.symm⟩

end Covers

/-! ### The whole range -/

/-- The events that the stored position does not cover. -/
def missing (last : Option P) (events : List (P × E)) : List (P × E) :=
  events.filter fun x => !last.any (Position.contains · x.1)

omit [Store σ P] [RecordOps ρ E] in
theorem missing_concat (last : Option P) (done : List (P × E)) (y : P × E) :
    missing last (done ++ [y]) = missing last done ++
      if last.any (Position.contains · y.1) then [] else [y] := by
  unfold missing
  rw [List.filter_append]
  congr 1
  cases h : last.any (Position.contains · y.1) <;> simp [h]

namespace BlockWriter

/-- An event is withheld only by a healthy writer of a deduplicating source that covers it. -/
theorem record_verdict (w : BlockWriter P) (io : Io σ ρ P E) (position : P) (event : E) :
    (w.record io position event).2.2 = false ↔ w.core.healthy = true ∧
      Position.reobservation P = .dedupe ∧ w.covered position = true := by
  by_cases hP : Position.reobservation P = .dedupe ∧ w.covered position = true
  · cases hh : w.core.healthy
    · simp [record, hh]
    · rw [record_covered w io position event hh hP.1 hP.2]
      simp [hP]
  · have hrec := record_uncovered w io position event hP
    generalize w.record io position event = r at hrec
    cases hrec <;> simp [hP]

end BlockWriter

/-- The events come in the order of their sort keys, none below the stored position. -/
structure Ascending (last : Option P) (events : List (P × E)) : Prop where
  sorted : events.Pairwise fun x y => Position.sortKey x.1 ≤ Position.sortKey y.1
  above : ∀ l ∈ last, ∀ x ∈ events, Position.sortKey l ≤ Position.sortKey x.1
  /-- A halting source starts above the stored position. -/
  uncovered : Position.reobservation P = .halt → ∀ l ∈ last, ∀ x ∈ events,
    Position.contains l x.1 = false

section Ascending

variable {last : Option P} {events done rest : List (P × E)} {y : P × E}

omit [Store σ P] [RecordOps ρ E] in
theorem Ascending.le (h : Ascending last events) (hsplit : events = done ++ y :: rest) :
    ∀ x ∈ done, Position.sortKey x.1 ≤ Position.sortKey y.1 := by
  intro x hx
  have hsorted := h.sorted
  rw [hsplit, List.pairwise_append] at hsorted
  exact hsorted.2.2 x hx y List.mem_cons_self

variable (hasc : Ascending last events)

include hasc

theorem Ascending.covers (hsplit : events = done ++ y :: rest) {w : BlockWriter P}
    [LawfulPosition P]
    (h : Covers last done w) (io : Io σ ρ P E) :
    Covers last (done ++ [y]) (w.record io y.1 y.2).1 := by
  have hy : y ∈ events := by rw [hsplit]; simp
  exact h.step (fun l hl => hasc.above l hl y hy) (hasc.le hsplit) (w.record_kept io y.1 y.2)

end Ascending

/-- What is so whatever fails: a consumer receives nothing but the events so far, in order, and what
is written is at sort keys up to `hi`. -/
structure Settles (last : Option P) (hi : Nat) (done : List (P × E))
    (s : BlockWriter P × Io σ ρ P E) :
    Prop where
  covers : Covers last done s.1
  delivered : (yields s.2.effects).Sublist (done.map Prod.snd)
  written : ∀ g ∈ writes s.2.effects, Position.sortKey g.1 ≤ hi

/-- The effects of one event: those of recording it, and its delivery. -/
theorem settleOne_effects (s : BlockWriter P × Io σ ρ P E) (y : P × E) : ∃ xs,
    yields (BlockWriter.settleOne s y).2.effects
      = yields s.2.effects ++ (if (s.1.record s.2 y.1 y.2).2.2 then [y.2] else []) ∧
    writes (BlockWriter.settleOne s y).2.effects = writes s.2.effects ++ xs ∧
      ∀ g ∈ xs, ∃ cur ∈ s.1.current, g.1 = cur := by
  obtain ⟨xs, heffects, hxs, hgroups⟩ := (s.1.record_kept s.2 y.1 y.2).effects
  refine ⟨writes xs, ?_, ?_, hgroups⟩
  · show yields ((s.1.record s.2 y.1 y.2).2.1.effects ++ _) = _
    rw [heffects, yields_append, yields_append, hxs, List.append_nil]
    cases (s.1.record s.2 y.1 y.2).2.2 <;> rfl
  · show writes ((s.1.record s.2 y.1 y.2).2.1.effects ++ _) = _
    rw [heffects, writes_append, writes_append]
    cases (s.1.record s.2 y.1 y.2).2.2 <;> exact List.append_nil _

variable [LawfulPosition P] {last : Option P} {events done rest : List (P × E)} {y : P × E}

theorem Settles.step (hasc : Ascending last events) {hi : Nat}
    (hhi : ∀ x ∈ events, Position.sortKey x.1 ≤ hi) (hsplit : events = done ++ y :: rest)
    {s : BlockWriter P × Io σ ρ P E} (h : Settles last hi done s) :
    Settles last hi (done ++ [y]) (BlockWriter.settleOne s y) := by
  obtain ⟨xs, hyields, hwrites, hgroups⟩ := settleOne_effects s y
  refine ⟨hasc.covers hsplit h.covers s.2, ?_, fun g hg => ?_⟩
  · rw [hyields, List.map_append]
    apply h.delivered.append
    cases (s.1.record s.2 y.1 y.2).2.2
    · exact List.nil_sublist _
    · exact List.Sublist.refl _
  · rw [hwrites, List.mem_append] at hg
    rcases hg with hg | hg
    · exact h.written g hg
    · obtain ⟨cur, hcur, rfl⟩ := hgroups g hg
      obtain ⟨x, hx, hkey⟩ := h.covers.current_mem hcur
      rw [← hkey]
      apply hhi
      rw [hsplit]
      exact List.mem_append_left _ hx

theorem settles_run (hasc : Ascending last events) {hi : Nat}
    (hhi : ∀ x ∈ events, Position.sortKey x.1 ≤ hi) (store : σ) (record : ρ) :
    Settles last hi events
      (events.foldl BlockWriter.settleOne (BlockWriter.new last, ⟨store, record, []⟩)) := by
  refine foldl_invariant _ ?_ fun done y rest s hsplit h => h.step hasc hhi hsplit
  exact ⟨Covers.new last, List.Sublist.refl _, fun _ hg => absurd hg List.not_mem_nil⟩

/-- While the events are at the stored position's own sort key, where they all encode, the writer
stays healthy; and so what a consumer receives is what the stored position does not cover. -/
structure Resumes (R : ρ → Prop) (last : Option P) (done : List (P × E))
    (s : BlockWriter P × Io σ ρ P E) : Prop where
  covers : Covers last done s.1
  healthy : (∀ x ∈ done, ∃ l ∈ last, Position.sortKey x.1 = Position.sortKey l) →
    s.1.core.healthy = true ∧ R s.2.record
  delivered : yields s.2.effects = (missing last done).map Prod.snd

omit [LawfulPosition P] in
/-- Recording an event that encodes, at the sort key of the open group, keeps the writer healthy. -/
theorem BlockWriter.record_healthy {w : BlockWriter P} {io : Io σ ρ P E} {D : E → Prop}
    {R : ρ → Prop}
    (henc : Encodes D R) (hh : w.core.healthy = true) (hR : R io.record) {position : P} {event : E}
    (hD : D event) (hcur : ∀ cur ∈ w.current, Position.sortKey cur = Position.sortKey position) :
    (w.record io position event).1.core.healthy = true ∧
      R (w.record io position event).2.1.record := by
  by_cases hP : Position.reobservation P = .dedupe ∧ w.covered position = true
  · rw [record_covered w io position event hh hP.1 hP.2]
    exact ⟨hh, hR⟩
  · obtain ⟨row, record, he, hR'⟩ := henc io.record hR event hD
    have hrec := record_uncovered w io position event hP
    generalize w.record io position event = r at hrec
    cases hrec with
    | unhealthy hh' => exact nomatch hh.symm.trans hh'
    | encode hh e record' he' => exact nomatch (Prod.mk.inj (he.symm.trans he')).1
    | unordered hh row' schema record' he' cur hc hlt => have := hcur cur hc; omega
    | write hh row' schema record' he' cur hc hlt e store hw => have := hcur cur hc; omega
    | advances hh row' schema record' he' cur hc hlt store hw => have := hcur cur hc; omega
    | «extends» hh row' schema record' he' hc =>
      obtain ⟨-, rfl⟩ := Prod.mk.inj (he.symm.trans he')
      exact ⟨hh, hR'⟩

theorem Resumes.step {R : ρ → Prop} (hasc : Ascending last events) (hid : Identified events)
    (henc : Encodes (fun e => ∃ x ∈ events, x.2 = e ∧
      ∃ l ∈ last, Position.sortKey x.1 = Position.sortKey l) R)
    (hsplit : events = done ++ y :: rest) {s : BlockWriter P × Io σ ρ P E}
    (h : Resumes R last done s) : Resumes R last (done ++ [y]) (BlockWriter.settleOne s y) := by
  have hy : y ∈ events := by rw [hsplit]; simp
  have hle := hasc.le hsplit
  -- at the stored sort key nothing has moved on
  have hbefore : ∀ l ∈ last, Position.sortKey y.1 = Position.sortKey l →
      ∀ x ∈ done, ∃ l ∈ last, Position.sortKey x.1 = Position.sortKey l := by
    intro l hl hkey x hx
    have hx' : x ∈ events := by rw [hsplit]; simp [hx]
    refine ⟨l, hl, Nat.le_antisymm ?_ (hasc.above l hl x hx')⟩
    rw [← hkey]
    exact hle x hx
  have hverdict : (s.1.record s.2 y.1 y.2).2.2 = !last.any (Position.contains · y.1) := by
    have hiff := s.1.record_verdict s.2 y.1 y.2
    cases hany : last.any (Position.contains · y.1)
    · -- not covered: the writer has no reason to withhold it
      rw [Bool.not_false, ← Bool.not_eq_false, hiff]
      rintro ⟨-, hP, hcov⟩
      rw [h.covers.covered_eq hP (hsplit ▸ hid) hle, hany] at hcov
      exact Bool.false_ne_true hcov
    · obtain ⟨l, hl, hcontains⟩ := (Option.any_eq_true _ _).mp hany
      have hkey : Position.sortKey y.1 = Position.sortKey l :=
        Nat.le_antisymm (LawfulPosition.le_of_contains l y.1 hcontains) (hasc.above l hl y hy)
      have hP : Position.reobservation P = .dedupe := by
        rcases hP : Position.reobservation P with _ | _
        · exact nomatch (hasc.uncovered hP l hl y hy).symm.trans hcontains
        · rfl
      rw [Bool.not_true, hiff, h.covers.covered_eq hP (hsplit ▸ hid) hle]
      exact ⟨(h.healthy (hbefore l hl hkey)).1, hP, hany⟩
  obtain ⟨xs, hyields, -, -⟩ := settleOne_effects s y
  refine ⟨hasc.covers hsplit h.covers s.2, fun hall => ?_, ?_⟩
  · obtain ⟨l, hl, hkey⟩ := hall y (by simp)
    obtain ⟨hh, hR⟩ := h.healthy (hbefore l hl hkey)
    refine BlockWriter.record_healthy henc hh hR ⟨y, hy, rfl, l, hl, hkey⟩ fun cur hcur => ?_
    obtain ⟨x, hx, hxcur⟩ := h.covers.current_mem hcur
    obtain ⟨l', hl', hkey'⟩ := hbefore l hl hkey x hx
    obtain rfl := Option.some.inj (hl.symm.trans hl')
    rw [← hxcur, hkey', hkey]
  · rw [hyields, h.delivered, missing_concat, hverdict, List.map_append]
    cases last.any (Position.contains · y.1) <;> rfl

theorem resumes_run {R : ρ → Prop} (hasc : Ascending last events) (hid : Identified events)
    (henc : Encodes (fun e => ∃ x ∈ events, x.2 = e ∧
      ∃ l ∈ last, Position.sortKey x.1 = Position.sortKey l) R) (store : σ) {record : ρ}
    (hR : R record) :
    Resumes R last events
      (events.foldl BlockWriter.settleOne (BlockWriter.new last, ⟨store, record, []⟩)) := by
  refine foldl_invariant _ ?_ fun done y rest s hsplit h => h.step hasc hid henc hsplit
  exact ⟨Covers.new last, fun _ => ⟨rfl, hR⟩, rfl⟩

end ArtemisLight
