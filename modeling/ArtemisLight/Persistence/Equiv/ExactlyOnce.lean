import ArtemisLight.Persistence.Scripted
import ArtemisLight.Persistence.Writer.Equiv.Frontier
import ArtemisLight.Persistence.Writer.Equiv.Stored

/-!
# Exactly once across restarts

A run of a frontier source resumes from the stored frontier and may be cut off anywhere.
`Aligned` is what the stored rows and the stored frontier have in common, and every run keeps it:
no pair of an instant and an identity is ever stored twice, however often it is reported.
-/

namespace ArtemisLight

variable {σ ρ E : Type}

/-! ### Archives and the pairs behind their rows -/

/-- An archive whose rows were stored for `pairs`, none of them twice: its frontier covers them all,
and at its instant has seen no others. -/
structure Aligned (a : Archive TimeFrontier) (pairs : List (TimeFrontier × Row)) : Prop where
  rows : a.rows = pairs.map fun x => (x.1.timeMs, x.2)
  nodup : (pairs.map Prod.fst).Nodup
  single : ∀ q ∈ pairs.map Prod.fst, ∃ i, q.seen = {i}
  covers : ∀ q ∈ pairs.map Prod.fst, ∃ w ∈ a.position, Position.contains w q = true
  exact : ∀ w ∈ a.position, ∀ i ∈ w.seen, (⟨w.timeMs, {i}⟩ : TimeFrontier) ∈ pairs.map Prod.fst

theorem prefix_knownPairs {effects effects' : List (Effect TimeFrontier E)}
    (h : effects <+: effects') (stored : List TimeFrontier) :
    knownPairs stored effects <+: knownPairs stored effects' := by
  obtain ⟨rest, rfl⟩ := h
  refine ⟨acceptedPositions rest, ?_⟩
  rw [List.append_assoc, ← List.map_append, ← accepts_append]

namespace Aligned

variable {a : Archive TimeFrontier} {pairs : List (TimeFrontier × Row)}

theorem empty : Aligned .empty [] :=
  ⟨rfl, .nil, fun _ hq => absurd hq List.not_mem_nil, fun _ hq => absurd hq List.not_mem_nil,
    fun _ hw => nomatch hw⟩

/-- One write: a group with the pairs it was accepted for. -/
theorem commit (h : Aligned a pairs) {ls : List (TimeFrontier × Row)} {p : TimeFrontier}
    {rows : List Row} (hgroup : Labelled ls p.timeMs p rows)
    (htime : ∀ x ∈ ls, x.1.timeMs = p.timeMs)
    (hsingle : ∀ x ∈ ls, ∃ i, x.1.seen = {i}) (hnodup : ((pairs ++ ls).map Prod.fst).Nodup) :
    Aligned (a.commit p rows) (pairs ++ ls) where
  rows := by
    have hkeyed : rows.map (Position.sortKey p, ·) = ls.map fun x => (x.1.timeMs, x.2) := by
      rw [hgroup.rows, List.map_map]
      refine List.map_congr_left fun x hx => ?_
      show (p.timeMs, x.2) = (x.1.timeMs, x.2)
      rw [htime x hx]
    show a.rows ++ rows.map (Position.sortKey p, ·) = _
    rw [h.rows, hkeyed, List.map_append]
  nodup := hnodup
  single q hq := by
    rw [List.map_append] at hq
    rcases List.mem_append.mp hq with hq | hq
    · exact h.single q hq
    · obtain ⟨x, hx, rfl⟩ := List.mem_map.mp hq
      exact hsingle x hx
  covers q hq := by
    refine ⟨_, rfl, ?_⟩
    rw [List.map_append] at hq
    rcases List.mem_append.mp hq with hq | hq
    · obtain ⟨w, hw, hc⟩ := h.covers q hq
      rw [Option.mem_def.mp hw]
      exact TimeFrontier.contains_advance_left hc p
    · obtain ⟨x, hx, rfl⟩ := List.mem_map.mp hq
      exact TimeFrontier.contains_advance_right (hgroup.contains hq (htime x hx)) a.position
  exact := by
    have hold : Marks ((pairs ++ ls).map Prod.fst) (fun _ => True) a.position := by
      refine ⟨fun w hw i hi => ?_, fun _ _ => trivial⟩
      rw [List.map_append]
      exact List.mem_append_left _ (h.exact w hw i hi)
    refine (hold.advance (fun i hi => ?_) trivial).exact
    rw [List.map_append]
    exact List.mem_append_right _ (hgroup.mem_of_seen htime hsingle hi)

/-- What any part of a trace stores. -/
theorem after (h : Aligned a pairs) {seed : Option TimeFrontier} {cut : Option Nat}
    {effects : List (Effect TimeFrontier E)}
    (htraced : Always (Traced (pairs.map Prod.fst) seed cut) effects)
    (hnodup : (knownPairs (pairs.map Prod.fst) effects).Nodup)
    (hsingle : ∀ q ∈ knownPairs (pairs.map Prod.fst) effects, ∃ i, q.seen = {i}) :
    Aligned (a.after effects) (pairs ++ (labels effects).written) := by
  induction effects using List.reverseRecOn with
  | nil =>
    show Aligned a (pairs ++ [])
    rw [List.append_nil]
    exact h
  | append_singleton l x ih =>
    have hpart := prefix_knownPairs (List.prefix_append l [x]) (pairs.map Prod.fst)
    have hold := ih htraced.of_append (hnodup.sublist hpart.sublist)
      fun q hq => hsingle q (hpart.subset hq)
    rw [Archive.after_append]
    cases x with
    | wrote w p rows =>
      -- the labels that waited at the instant are the rows written
      have hgroup : Labelled (waiting l p.timeMs) p.timeMs p rows := htraced.last
      have hwritten : (labels (l ++ [.wrote w p rows])).written
          = (labels l).written ++ waiting l p.timeMs := by
        rw [labels_concat]
        rfl
      have hall := nodup_written hnodup
      rw [hwritten, List.map_append, ← List.append_assoc] at hall
      rw [hwritten, ← List.append_assoc]
      refine hold.commit hgroup (fun x hx => sortKey_of_waiting hx) (fun x hx => ?_) ?_
      · exact hsingle x.1 (hpart.subset (List.mem_append_right _ (accepted_of_waiting hx)))
      · rw [List.map_append, List.map_append]
        exact hall
    | accepted w p e row =>
      have hwritten : (labels (l ++ [.accepted w p e row])).written = (labels l).written := by
        rw [labels_concat]
        rfl
      rw [hwritten]
      exact hold
    | _ =>
      rw [labels_of_silent l rfl rfl]
      exact hold

/-- A run that resumes from the archive starts with its pairs tallied. -/
theorem tally (h : Aligned a pairs) (cut : Option Nat) :
    Tally (pairs.map Prod.fst) a.position cut a.position ([] : List (Effect TimeFrontier E)) := by
  have hknown : knownPairs (pairs.map Prod.fst) ([] : List (Effect TimeFrontier E))
      = pairs.map Prod.fst := List.append_nil _
  refine ⟨.nil, ?_, ?_, ?_, ?_⟩ <;> rw [hknown]
  · exact h.nodup
  · exact h.single
  · exact ⟨h.exact, fun w hw => .inl ⟨w, hw, rfl⟩⟩
  · exact fun q hq => .inr (h.covers q hq)

end Aligned

/-! ### Runs -/

/-- What a frontier source may report to a run that resumes from `seed`: one identity with each
event, a backfill within the range asked for, and no live stream if the run is bounded. -/
structure Reported (p : Persisted ρ) (tip : Nat) (seed : Option TimeFrontier)
    (backfill : List (TimeFrontier × E)) (live : List (Indexed TimeFrontier E)) : Prop where
  small : tip + p.confirmationDepth ≤ u64Max
  range : ∀ x ∈ backfill, seed.elim 0 Position.resumeKey ≤ x.1.timeMs ∧
    x.1.timeMs ≤ p.effectiveTip tip
  single : ∀ x ∈ backfill, ∃ i, x.1.seen = {i}
  singleLive : ∀ q e, .event q e ∈ live → ∃ i, q.seen = {i}
  bounded : p.toBlock.isSome → live = []

/-- What a run does. -/
abbrev Persisted.run [Store σ TimeFrontier] [RecordOps ρ E] (p : Persisted ρ) (tip : Nat)
    (seed : Option TimeFrontier) (backfill : List (TimeFrontier × E))
    (live : List (Indexed TimeFrontier E)) (store : σ) (record : ρ) :
    List (Effect TimeFrontier E) :=
  (persistAndEmit backfill live store record p.confirmationDepth (p.finalCut tip) seed).io.effects

/-- The archives that runs over one table can leave behind, from `a₀` on, each with the pairs that
its rows were stored for.  A run is cut off anywhere, and the next one resumes from the stored
frontier. -/
inductive Resumed (σ ρ E : Type) [Archival σ TimeFrontier] [RecordOps ρ E] (table : String)
    (a₀ : Archive TimeFrontier) (pairs₀ : List (TimeFrontier × Row)) :
    Archive TimeFrontier → List (TimeFrontier × Row) → Prop
  | start : Resumed σ ρ E table a₀ pairs₀ a₀ pairs₀
  | run {a : Archive TimeFrontier} {pairs : List (TimeFrontier × Row)}
      (h : Resumed σ ρ E table a₀ pairs₀ a pairs) {p : Persisted ρ} {tip : Nat}
      {backfill : List (TimeFrontier × E)} {live : List (Indexed TimeFrontier E)}
      (hreported : Reported p tip a.position backfill live) {store : σ}
      (hstore : Archival.archive store table = a) {record : ρ}
      (htable : RecordOps.table E record = table) {effects : List (Effect TimeFrontier E)}
      (hpre : effects <+: p.run tip a.position backfill live store record) :
      Resumed σ ρ E table a₀ pairs₀ (a.after effects) (pairs ++ (labels effects).written)

/-- One run's end is the next run's store. -/
theorem Resumed.next [Archival σ TimeFrontier] [RecordOps ρ E] {a₀ : Archive TimeFrontier}
    {pairs₀ pairs : List (TimeFrontier × Row)} {record : ρ} {store : σ} {p : Persisted ρ}
    {tip : Nat}
    {backfill : List (TimeFrontier × E)} {live : List (Indexed TimeFrontier E)}
    (h : Resumed σ ρ E (RecordOps.table E record) a₀ pairs₀
      (Archival.archive store (RecordOps.table E record)) pairs)
    (hreported : Reported p tip
      (Archival.archive (P := TimeFrontier) store (RecordOps.table E record)).position backfill
        live) :
    let s := persistAndEmit backfill live store record p.confirmationDepth (p.finalCut tip)
      (Archival.archive (P := TimeFrontier) store (RecordOps.table E record)).position
    Resumed σ ρ E (RecordOps.table E record) a₀ pairs₀
      (Archival.archive s.io.store (RecordOps.table E record))
      (pairs ++ (labels s.io.effects).written) := by
  intro s
  rw [archive_persistAndEmit]
  exact .run h hreported rfl rfl (List.prefix_refl _)

/-- A run that resumes from an aligned archive keeps the tally. -/
theorem Reported.tally [Store σ TimeFrontier] [RecordOps ρ E] {p : Persisted ρ} {tip : Nat}
    {a : Archive TimeFrontier} {pairs : List (TimeFrontier × Row)}
    {backfill : List (TimeFrontier × E)} {live : List (Indexed TimeFrontier E)}
    (h : Reported p tip a.position backfill live) (ha : Aligned a pairs) (store : σ)
    (record : ρ) :
    (∃ wm, Tally (pairs.map Prod.fst) a.position (p.finalCut tip) wm
      (p.run tip a.position backfill live store record)) ∧
      Even (p.run tip a.position backfill live store record) := by
  have htip : p.toBlock = none → p.effectiveTip tip < u64Max := by
    intro hbound
    have hdepth := p.depth_pos
    have hmax := h.small
    unfold Persisted.effectiveTip
    rw [hbound]
    show tip < u64Max
    omega
  refine tally_persistAndEmit (ha.tally _) (p.unripe (Nat.le_refl _) htip) (fun x hx => ?_)
    h.singleLive store record
  obtain ⟨hlo, hhi⟩ := h.range x hx
  refine ⟨?_, hhi, h.single x hx⟩
  rcases hseed : a.position with _ | w
  · exact Nat.zero_le _
  · rw [hseed] at hlo
    exact hlo

/-- Every archive that runs leave behind is aligned. -/
theorem Resumed.aligned [Archival σ TimeFrontier] [RecordOps ρ E] {table : String}
    {a₀ a : Archive TimeFrontier} {pairs₀ pairs : List (TimeFrontier × Row)}
    (h : Resumed σ ρ E table a₀ pairs₀ a pairs) (h₀ : Aligned a₀ pairs₀) :
    Aligned a pairs := by
  induction h with
  | start => exact h₀
  | @run a pairs _ p tip backfill live hreported store _ record _ effects hpre ih =>
    obtain ⟨⟨wm, htally⟩, -⟩ := hreported.tally ih store record
    have hknown := prefix_knownPairs hpre (pairs.map Prod.fst)
    exact ih.after (htally.traced.of_isPrefix hpre) (htally.nodup.sublist hknown.sublist)
      fun q hq => htally.single q (hknown.subset hq)

/-- At every moment of a healthy run the accepted events have been yielded, apart from the one that
is about to be. -/
theorem yields_of_traced {stored : List TimeFrontier} {seed : Option TimeFrontier}
    {cut : Option Nat} {effects : List (Effect TimeFrontier E)}
    (h : Always (Traced stored seed cut) effects) (hu : Unhalted effects) :
    ∃ next : Option E, (accepts effects).map Prod.snd = yields effects ++ next.toList := by
  induction effects using List.reverseRecOn with
  | nil => exact ⟨none, rfl⟩
  | append_singleton l x ih =>
    have hu' : Unhalted l := fun writer reason hmem =>
      hu writer reason (List.mem_append_left _ hmem)
    have hx := h.last
    rw [accepts_append, yields_append, List.map_append]
    cases x with
    | accepted w p e row =>
      refine ⟨some e, ?_⟩
      rw [hx hu']
      show yields l ++ [e] = yields l ++ [] ++ [e]
      rw [List.append_nil]
    | yielded e =>
      refine ⟨none, ?_⟩
      rw [hx hu']
      show yields l ++ [e] ++ [] = yields l ++ [e] ++ []
      rfl
    | _ =>
      obtain ⟨next, hnext⟩ := ih h.of_append hu'
      refine ⟨next, ?_⟩
      rw [hnext]
      show yields l ++ next.toList ++ [] = yields l ++ [] ++ next.toList
      rw [List.append_nil, List.append_nil]

/-- However often a run against a frontier source is cut off and resumed, with writes and encodings
failing anywhere: no pair is stored in two rows.  At every moment of a run that has not halted, the
yielded events are those whose rows were accepted, up to the one that is about to be yielded; a pair
is accepted at most once, and only if it was not stored before; and an event is suppressed only if
its pair is stored or accepted already, or lies strictly below an instant that has been stored,
settled or written. -/
theorem exactly_once [Archival σ TimeFrontier] [RecordOps ρ E] {table : String}
    {a₀ a : Archive TimeFrontier} {pairs₀ pairs : List (TimeFrontier × Row)}
    (h₀ : Aligned a₀ pairs₀) (h : Resumed σ ρ E table a₀ pairs₀ a pairs) :
    (a.rows = pairs.map (fun x => (x.1.timeMs, x.2)) ∧ (pairs.map Prod.fst).Nodup) ∧
      ∀ (p : Persisted ρ) (tip : Nat) (backfill : List (TimeFrontier × E))
        (live : List (Indexed TimeFrontier E)), Reported p tip a.position backfill live →
      ∀ (store : σ) (record : ρ) (effects : List (Effect TimeFrontier E)),
        effects <+: p.run tip a.position backfill live store record →
        (Unhalted effects → ∃ next : Option E,
          (accepts effects).map Prod.snd = yields effects ++ next.toList ∧
            (effects = p.run tip a.position backfill live store record → next = none)) ∧
        (pairs.map Prod.fst ++ acceptedPositions effects).Nodup ∧
        ∀ past q e rest, effects = past ++ .suppressed q e :: rest →
          q ∈ pairs.map Prod.fst ++ acceptedPositions past ∨
            ∃ t, Attained a.position (p.finalCut tip) past t ∧ q.timeMs < t := by
  have ha := h.aligned h₀
  refine ⟨⟨ha.rows, ha.nodup⟩, fun p tip backfill live hreported store record effects hpre => ?_⟩
  obtain ⟨⟨wm, htally⟩, heven⟩ := hreported.tally ha store record
  have htraced := htally.traced.of_isPrefix hpre
  refine ⟨fun hu => ?_, ?_, fun past q e rest heffects => htraced past _ rest heffects⟩
  · by_cases hwhole : effects = p.run tip a.position backfill live store record
    · refine ⟨none, ?_, fun _ => rfl⟩
      rw [hwhole] at hu ⊢
      exact (heven hu).trans (List.append_nil _).symm
    · obtain ⟨next, hnext⟩ := yields_of_traced htraced hu
      exact ⟨next, hnext, fun heq => absurd heq hwhole⟩
  · exact htally.nodup.sublist (prefix_knownPairs hpre _).sublist

/-! ### A run that fails and a run that resumes -/

def failedBackfill : List (TimeFrontier × ValueSet) :=
  [(⟨5, {"b"}⟩, ⟨2⟩), (⟨5, {"a"}⟩, ⟨1⟩), (⟨5, {"b"}⟩, ⟨2⟩), (⟨6, {"c"}⟩, ⟨3⟩)]

def failedLive : List (Indexed TimeFrontier ValueSet) :=
  [.event ⟨6, {"c"}⟩ ⟨3⟩, .event ⟨6, {"d"}⟩ ⟨4⟩, .event ⟨9, {"e"}⟩ ⟨5⟩]

/-- The second write of the first run fails. -/
def failedRun : List (Effect TimeFrontier ValueSet) :=
  (scriptedWrapper 1 1 Nat.one_pos none).run 6 none failedBackfill failedLive
    (MemoryStore.new [1] : MemoryStore TimeFrontier) (Record.inferred ValueSet.table)

def failedFrontier : Archive TimeFrontier := Archive.empty.after failedRun

/-- The next run is told everything from the stored instant on, some of it twice. -/
def resumedBackfill : List (TimeFrontier × ValueSet) :=
  [(⟨5, {"a"}⟩, ⟨1⟩), (⟨5, {"b"}⟩, ⟨2⟩), (⟨6, {"d"}⟩, ⟨4⟩), (⟨6, {"c"}⟩, ⟨3⟩), (⟨9, {"e"}⟩, ⟨5⟩)]

def resumedLive : List (Indexed TimeFrontier ValueSet) :=
  [.event ⟨9, {"e"}⟩ ⟨5⟩, .event ⟨6, {"c"}⟩ ⟨3⟩, .event ⟨9, {"f"}⟩ ⟨6⟩]

def resumedRun : List (Effect TimeFrontier ValueSet) :=
  (scriptedWrapper 1 1 Nat.one_pos none).run 9 failedFrontier.position resumedBackfill resumedLive
    (MemoryStore.holding failedFrontier) (Record.inferred ValueSet.table)

theorem exactly_once_resumed :
    failedFrontier.position = some ⟨5, {"b", "a"}⟩ ∧ failedFrontier.rows.length = 2 ∧
      yields resumedRun = [⟨4⟩, ⟨3⟩, ⟨5⟩, ⟨6⟩] ∧
      (accepts resumedRun).map Prod.snd = yields resumedRun := by
  have hposition : failedFrontier.position = some ⟨5, {"b", "a"}⟩ := by decide +kernel
  have hfirst : Reported (scriptedWrapper 1 1 (by decide) none) 6 none failedBackfill failedLive :=
    ⟨by decide, by decide, by simp [failedBackfill], by simp +contextual [failedLive, or_imp],
      fun hbound => absurd hbound (by decide)⟩
  have hfailed : Resumed (MemoryStore TimeFrontier) Record ValueSet ValueSet.table .empty []
      failedFrontier ([] ++ (labels failedRun).written) :=
    .run .start hfirst
      (rfl : Archival.archive (MemoryStore.new [1] : MemoryStore TimeFrontier) ValueSet.table
        = .empty)
      (rfl : RecordOps.table ValueSet (Record.inferred ValueSet.table) = ValueSet.table)
      (List.prefix_refl _)
  have hresumed : Reported (scriptedWrapper 1 1 (by decide) none) 9 failedFrontier.position
      resumedBackfill resumedLive := by
    refine ⟨by decide, ?_, by simp [resumedBackfill], by simp +contextual [resumedLive, or_imp],
      fun hbound => absurd hbound (by decide)⟩
    rw [hposition]
    decide
  have h := (exactly_once .empty hfailed).2 _ 9 _ _ hresumed (MemoryStore.holding failedFrontier)
    (Record.inferred ValueSet.table) resumedRun (List.prefix_refl _)
  have hunhalted : Unhalted resumedRun := by decide +kernel
  obtain ⟨next, hnext, hend⟩ := h.1 hunhalted
  refine ⟨hposition, by decide +kernel, by decide +kernel, ?_⟩
  rw [hnext, hend rfl]
  exact List.append_nil _

end ArtemisLight
