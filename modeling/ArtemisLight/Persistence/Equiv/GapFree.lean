import ArtemisLight.Persistence.Equiv.Subscribe
import ArtemisLight.Persistence.Scripted

/-!
# Gap-free writing under arbitrary input

What the writers of a block subscription guarantee whatever the source reports, in whatever order,
and whatever fails: the written keys increase from the stored position, a halted writer writes
nothing more, and no held row is skipped.
-/

namespace ArtemisLight

variable {σ ρ E : Type}

/-! ### Reading the safety of a trace -/

section Trace

variable {seed : Option BlockPosition} {effects : List (Effect BlockPosition E)}

theorem Safe.writes_pairwise (h : Always (Safe seed) effects) :
    (writes effects).Pairwise fun g g' => g.1.block < g'.1.block := by
  induction effects using List.reverseRecOn with
  | nil => exact List.Pairwise.nil
  | append_singleton past x ih =>
    have ih := ih h.of_append
    rw [writes_append, List.pairwise_append]
    refine ⟨ih, ?_, fun g hg g' hg' => ?_⟩
    · rcases hx : x.wrote? with _ | g <;> simp [writes, hx]
    · obtain ⟨w, hw⟩ := mem_writes.mp hg'
      rw [List.mem_singleton] at hw
      subst hw
      exact (h.last : WriteSafe seed past w g'.1 g'.2).increasing g hg

theorem Safe.above_seed (h : Always (Safe seed) effects) {s : BlockPosition} (hs : s ∈ seed)
    {g : BlockPosition × List Row} (hg : g ∈ writes effects) : s.block < g.1.block := by
  obtain ⟨w, hw⟩ := mem_writes.mp hg
  obtain ⟨past, rest, rfl⟩ := List.append_of_mem hw
  exact (h past _ rest rfl : WriteSafe seed past w g.1 g.2).above_seed s hs

/-- A halt of the settled writer excludes every write of the window, before and after it. -/
theorem Safe.no_window (h : Always (Safe seed) effects) {r : HaltReason BlockPosition}
    (hr : .halted .settled r ∈ effects) (position : BlockPosition) (rows : List Row) :
    .wrote .window position rows ∉ effects := by
  intro hw
  obtain ⟨past, rest, rfl⟩ := List.append_of_mem hw
  rcases List.mem_append.mp hr with hr | hr
  · exact (h past _ rest rfl : WriteSafe seed past .window position rows).settled_healthy r hr
  · rcases List.mem_cons.mp hr with hr | hr
    · exact absurd hr (by simp)
    · obtain ⟨past', rest', rfl⟩ := List.append_of_mem hr
      have hlast : Safe seed (past ++ .wrote .window position rows :: past') (.halted .settled r) :=
        h _ _ rest' (by simp)
      exact hlast position rows (by simp)

end Trace

/-! ### Subscriptions -/

section Subscription

variable [Store σ BlockPosition] [RecordOps ρ E]

/-- The writers as `Persisted.subscribe` starts them are safe on every input. -/
theorem Persisted.safe_persistAndEmit (p : Persisted ρ) (seed : Option BlockPosition) {tip : Nat}
    (htip : p.effectiveTip tip < u64Max) (backfill : List (BlockPosition × E))
    (hback : ∀ x ∈ backfill, seed.elim 0 Position.resumeKey ≤ x.1.block ∧
      x.1.block ≤ p.effectiveTip tip)
    (live : List (Indexed BlockPosition E)) (store : σ) (record : ρ) :
    Always (Safe seed) (persistAndEmit backfill live store record p.confirmationDepth
      (p.finalCut tip) seed).io.effects := by
  refine ArtemisLight.safe_persistAndEmit backfill live store record (p.bury htip)
    (fun x hx => (hback x hx).2) fun x hx q hq => ?_
  obtain ⟨hle, hxtip⟩ := hback x hx
  rw [Option.mem_def.mp hq, Option.elim_some] at hle
  -- a stored position at `u64::MAX` resumes from itself, but no key reaches it
  have hkey : Position.resumeKey q = min (q.block + 1) u64Max := rfl
  omega

end Subscription

/-! ### The rebuilt group -/

/-- The rows accepted at a sort key and not rewound or retracted since: `held` without the
rebuilding of a seeded group. -/
def unrewound (effects : List (Effect BlockPosition E)) (k : Nat) : List Row :=
  effects.foldl (fun rows x => match x with
    | .accepted _ p _ row => if p.block = k then rows ++ [row] else rows
    | .rewound key => if key ≤ k then [] else rows
    | _ => rows) []

/-- The backfill saw two events in the block at the tip, the live stream re-emits one of them. -/
def rebuiltEffects : List (Effect BlockPosition ValueSet) :=
  (persistAndEmit [(⟨9⟩, ⟨1⟩), (⟨9⟩, ⟨2⟩)] [.event ⟨9⟩ ⟨1⟩, .event ⟨10⟩ ⟨3⟩, .event ⟨11⟩ ⟨4⟩]
    (MemoryStore.new [] : MemoryStore BlockPosition) (Record.inferred ValueSet.table) 1
    ((scriptedWrapper 0 1 (by decide) none).finalCut 9) none).io.effects

/-- The row of a rebuilt group that the live stream did not re-emit was accepted, never rewound, and
is left unwritten below a written group. -/
theorem rebuilt_row_unwritten : ∃ past position rows rest,
    rebuiltEffects = past ++ .wrote .window position rows :: rest ∧
      ∃ k < position.block, ∃ row ∈ unrewound past k, ∀ g ∈ writes past, g.1.block = k →
        row ∉ g.2 :=
  ⟨rebuiltEffects.take 11, ⟨10⟩, [⟨[.text "0x3", .text "\x7b\"value\":\"0x3\"\x7d"]⟩],
    rebuiltEffects.drop 12, by decide +kernel, 9, by decide,
    ⟨[.text "0x2", .text "\x7b\"value\":\"0x2\"\x7d"]⟩, by decide +kernel, by decide +kernel⟩

/-! ### The guarantee -/

/-- Written keys increase strictly from the seed; a writer that halted writes nothing more, and the
window nothing at all once the settled writer has; and when a group is written, every lower row that
was accepted and not rewound, retracted or rebuilt since has been written. -/
theorem gap_free_writes [Store σ BlockPosition] [RecordOps ρ E] (p : Persisted ρ)
    (seed : Option BlockPosition) {tip : Nat}
    (htip : p.effectiveTip tip < u64Max) (backfill : List (BlockPosition × E))
    (hback : ∀ x ∈ backfill, seed.elim 0 Position.resumeKey ≤ x.1.block ∧
      x.1.block ≤ p.effectiveTip tip)
    (live : List (Indexed BlockPosition E)) (store : σ) (record : ρ)
    {effects : List (Effect BlockPosition E)}
    (heffects : effects = (persistAndEmit backfill live store record p.confirmationDepth
      (p.finalCut tip) seed).io.effects) :
    (writes effects).Pairwise (fun g g' => g.1.block < g'.1.block) ∧
    (∀ s ∈ seed, ∀ g ∈ writes effects, s.block < g.1.block) ∧
    (∀ r position rows, .halted .settled r ∈ effects → .wrote .window position rows ∉ effects) ∧
    ∀ past writer position rows rest, effects = past ++ .wrote writer position rows :: rest →
      (∀ r, .halted writer r ∉ past) ∧
      ∀ k < position.block, held past k ≠ [] → (⟨k⟩, heldRows past k) ∈ writes past := by
  have hsafe := p.safe_persistAndEmit seed htip backfill hback live store record
  rw [← heffects] at hsafe
  refine ⟨Safe.writes_pairwise hsafe, fun s hs g hg => Safe.above_seed hsafe hs hg,
    fun r position rows hr => Safe.no_window hsafe hr position rows,
    fun past writer position rows rest he => ?_⟩
  have hwrite : WriteSafe seed past writer position rows := hsafe past _ rest he
  exact ⟨hwrite.healthy, hwrite.gap_free⟩

theorem gap_free_writes_rebuilt : (writes rebuiltEffects).map (fun g => g.1.block) = [9, 10] ∧
    (writes rebuiltEffects).Pairwise fun g g' => g.1.block < g'.1.block :=
  ⟨by decide +kernel, (gap_free_writes (scriptedWrapper 0 1 (by decide) none) none (by decide) _
    (by decide) _ _ _ rfl).1⟩

end ArtemisLight
