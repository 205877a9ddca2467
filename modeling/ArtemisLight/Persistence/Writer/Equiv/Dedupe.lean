import ArtemisLight.Persistence.Writer.Equiv.Rising
import ArtemisLight.Persistence.Writer.Equiv.Tally

/-!
# The writers of a deduplicating source

On a deduplicating source nothing is rewound or rebuilt: an event that is not covered joins the
group at its sort key.  `HoldsOpen` and `Buffers` say, for frontiers, that the two writers hold
exactly what has been accepted and not written yet.
-/

namespace ArtemisLight

variable {σ ρ E : Type}

/-! ### The window of a deduplicating source -/

namespace ConfirmationWindow

section Dedupe

variable {P : Type} [Position P] [Store σ P] [RecordOps ρ E] {w : ConfirmationWindow P}
  {io : Io σ ρ P E} {position : P} {row : Row}

/-- A group with one more row; a new one is marked `seeded` or not. -/
def joined (seeded : Bool) (base : Option (Pending P)) (position : P) (row : Row) : Pending P :=
  match base with
  | none => ⟨position, [row], [], seeded⟩
  | some p =>
    { p with position := Position.advance (some p.position) position, rows := p.rows ++ [row] }

/-- The window after it took in one more row, at any instant. -/
def joining (w : ConfirmationWindow P) (schema : TableSchema) (seeded : Bool) (position : P)
    (row : Row) : ConfirmationWindow P :=
  { w.withSchema schema with
    pending := w.pending.insert (Position.sortKey position)
      (joined seeded (w.pending[Position.sortKey position]?) position row)
    head := some (w.head.elim (Position.sortKey position) (max · (Position.sortKey position))) }

/-- What recording an event does on a deduplicating source, during the backfill (`seeded`) or the
live stream. -/
inductive Joins (seeded : Bool) (w : ConfirmationWindow P) (io : Io σ ρ P E) (position : P)
    (event : E) : ConfirmationWindow P × Io σ ρ P E × Bool → Prop
  | unhealthy (hh : w.core.healthy = false) : Joins seeded w io position event (w, io, true)
  | covered (hh : w.core.healthy = true) (hc : w.covered position = true) :
      Joins seeded w io position event (w, io, false)
  | encode (hh : w.core.healthy = true) (e : Error) (record : ρ) :
      Joins seeded w io position event (w.halted,
        ({ io with record } : Io σ ρ P E).emit (.halted w.core.writer (.encode e)), true)
  | accepted (hh : w.core.healthy = true) (hc : w.covered position = false) (row : Row)
      (schema : TableSchema) (record : ρ) :
      Joins seeded w io position event
        (((w.joining schema seeded position row).flushMatured
            (({ io with record } : Io σ ρ P E).emit (.accepted .window position event row))).1,
          ((w.joining schema seeded position row).flushMatured
            (({ io with record } : Io σ ρ P E).emit (.accepted .window position event row))).2,
          true)

variable (hP : Position.reobservation P = .dedupe)

include hP in
theorem recordSeeded_joins (w : ConfirmationWindow P) (io : Io σ ρ P E) (position : P) (event : E) :
    Joins true w io position event (w.recordSeeded io position event) := by
  cases hh : w.core.healthy with
  | false =>
    rw [show w.recordSeeded io position event = (w, io, true) by simp [recordSeeded, hh]]
    exact .unhealthy hh
  | true =>
    cases hc : w.covered position with
    | true =>
      rw [show w.recordSeeded io position event = (w, io, false) by
        simp [recordSeeded, hh, hP, hc]]
      exact .covered hh hc
    | false =>
      rcases GapFreeWriter.encode_cases w.core io event with
        ⟨row, schema, record, -, he⟩ | ⟨e, record, -, he⟩
      · have haccept : (w.withSchema schema).acceptSeeded { io with record } position event row
            = (w.joining schema true position row,
              ({ io with record } : Io σ ρ P E).emit (.accepted .window position event row)) := by
          unfold acceptSeeded joining joined
          rcases hp : w.pending[Position.sortKey position]? with _ | p <;>
            simp only [withSchema, hp]
        have hrecord : w.recordSeeded io position event
            = ((((w.withSchema schema).acceptSeeded { io with record } position
                event row).1.flushMatured ((w.withSchema schema).acceptSeeded { io with record }
                  position event row).2).1,
              (((w.withSchema schema).acceptSeeded { io with record } position
                event row).1.flushMatured ((w.withSchema schema).acceptSeeded { io with record }
                  position event row).2).2, true) := by
          simp [recordSeeded, hh, hP, hc, he, withSchema]
        rw [hrecord, haccept]
        exact .accepted hh hc row schema record
      · rw [show w.recordSeeded io position event = (w.halted,
            ({ io with record } : Io σ ρ P E).emit (.halted w.core.writer (.encode e)), true) by
          simp [recordSeeded, hh, hP, hc, he, halted]]
        exact .encode hh e record

include hP in
/-- A group that expects nothing delivers whatever it is given. -/
theorem record_joins (w : ConfirmationWindow P) (io : Io σ ρ P E) (position : P) (event : E)
    (hexpected : ∀ p, w.pending[Position.sortKey position]? = some p → p.expected = []) :
    Joins false w io position event (w.record io position event) := by
  cases hh : w.core.healthy with
  | false =>
    rw [show w.record io position event = (w, io, true) by simp [record, hh]]
    exact .unhealthy hh
  | true =>
    cases hc : w.covered position with
    | true =>
      rw [record_dropped hh hP hc]
      exact .covered hh hc
    | false =>
      rcases GapFreeWriter.encode_cases w.core io event with
        ⟨row, schema, record, -, he⟩ | ⟨e, record, -, he⟩
      · -- without expected rows, the event joins its group or opens one
        have haccept : (w.withSchema schema).accept { io with record } position event row
            = (w.joining schema false position row,
              ({ io with record } : Io σ ρ P E).emit (.accepted .window position event row),
              true) := by
          unfold accept fold joining joined
          rcases hp : w.pending[Position.sortKey position]? with _ | p
          · simp [withSchema, hP, hp]
          · simp [withSchema, hP, hp, hexpected p hp]
        have hrecord : w.record io position event
            = ((((w.withSchema schema).accept { io with record } position
                event row).1.flushMatured ((w.withSchema schema).accept { io with record }
                  position event row).2.1).1,
              (((w.withSchema schema).accept { io with record } position
                event row).1.flushMatured ((w.withSchema schema).accept { io with record }
                  position event row).2.1).2,
              ((w.withSchema schema).accept { io with record } position event row).2.2) := by
          simp [ConfirmationWindow.record, hh, hP, hc, he, withSchema]
        rw [hrecord, haccept]
        exact .accepted hh hc row schema record
      · rw [show w.record io position event = (w.halted,
            ({ io with record } : Io σ ρ P E).emit (.halted w.core.writer (.encode e)), true) by
          simp [ConfirmationWindow.record, hh, hP, hc, he, halted]]
        exact .encode hh e record

end Dedupe

end ConfirmationWindow
/-! ### What the two writers buffer -/

/-- The open group of a block writer, if it is at the instant `k`. -/
def BlockWriter.groupAt (w : BlockWriter TimeFrontier) (k : Nat) :
    Option (TimeFrontier × List Row) :=
  (w.current.filter fun cur => decide (cur.timeMs = k)).map (·, w.buffer)

/-- A healthy settled writer buffers what waits at or below the final cut. -/
structure HoldsOpen (cut : Option Nat) (w : BlockWriter TimeFrontier)
    (effects : List (Effect TimeFrontier E)) : Prop where
  group : ∀ k, (∃ c ∈ cut, k ≤ c) → GroupAt effects k (w.groupAt k)
  inside : ∀ cur ∈ w.current, ∃ c ∈ cut, cur.timeMs ≤ c
  empty : w.current = none → w.buffer = []

namespace BlockWriter

variable {w : BlockWriter TimeFrontier} {k : Nat}

theorem groupAt_of_current {cur : TimeFrontier} (hc : w.current = some cur) :
    w.groupAt k = if cur.timeMs = k then some (cur, w.buffer) else none := by
  unfold groupAt
  rw [hc, Option.filter_some]
  split <;> simp_all

theorem groupAt_of_none (hc : w.current = none) : w.groupAt k = none := by
  unfold groupAt
  rw [hc]
  rfl

/-- The open group with one more row. -/
theorem groupAt_pushed {p : TimeFrontier} (schema : TableSchema) (row : Row)
    (hempty : w.current = none → w.buffer = [])
    (hcur : ∀ cur ∈ w.current, Position.sortKey cur = Position.sortKey p) :
    ((w.withSchema schema).pushed p row).groupAt k
      = if k = p.timeMs then some (ConfirmationWindow.extended (w.groupAt p.timeMs) p row)
        else none := by
  rcases hc : w.current with _ | cur
  · have hcurrent : ((w.withSchema schema).pushed p row).current = some p := by
      show some (Position.advance w.current p) = some p
      rw [hc]
      rfl
    rw [groupAt_of_none hc, groupAt_of_current hcurrent]
    by_cases hk : k = p.timeMs
    · rw [if_pos hk.symm, if_pos hk]
      show some (p, w.buffer ++ [row]) = some (p, [row])
      rw [hempty hc]
      rfl
    · rw [if_neg (Ne.symm hk), if_neg hk]
  · have hkey : cur.timeMs = p.timeMs := hcur cur hc
    have htime : (Position.advance (some cur) p).timeMs = p.timeMs := by
      have := LawfulPosition.sortKey_advance cur p
      show Position.sortKey (Position.advance (some cur) p) = p.timeMs
      rw [this]
      show max cur.timeMs p.timeMs = p.timeMs
      omega
    have hcurrent : ((w.withSchema schema).pushed p row).current
        = some (Position.advance (some cur) p) := by
      show some (Position.advance w.current p) = _
      rw [hc]
    rw [groupAt_of_current hc, if_pos hkey, groupAt_of_current hcurrent]
    by_cases hk : k = p.timeMs
    · rw [if_pos (htime.trans hk.symm), if_pos hk]
      rfl
    · rw [if_neg (fun heq => hk (heq.symm.trans htime)), if_neg hk]

end BlockWriter

/-- The group that a window buffers at the instant `k`. -/
def ConfirmationWindow.groupAt (w : ConfirmationWindow TimeFrontier) (k : Nat) :
    Option (TimeFrontier × List Row) := (w.pending[k]?).map fun p => (p.position, p.rows)

/-- A healthy window buffers what waits at the instants `ks`. -/
structure Buffers (ks : Nat → Prop) (w : ConfirmationWindow TimeFrontier)
    (effects : List (Effect TimeFrontier E)) : Prop where
  group : ∀ k, ks k → GroupAt effects k (w.groupAt k)
  inside : ∀ (k : Nat) p, w.pending[k]? = some p → ks k ∧ p.expected = []
  schema : ∀ (k : Nat) p, w.pending[k]? = some p → w.core.schema.isSome

section Frames

variable {effects : List (Effect TimeFrontier E)} {cut : Option Nat} {ks : Nat → Prop}
  {p : TimeFrontier}

theorem HoldsOpen.silent {w : BlockWriter TimeFrontier} (h : HoldsOpen cut w effects)
    {x : Effect TimeFrontier E} (ha : x.accepted? = none) (hw : x.wrote? = none) :
    HoldsOpen cut w (effects ++ [x]) :=
  ⟨fun k hk => (h.group k hk).silent ha hw, h.inside, h.empty⟩

/-- What is accepted above the cut is not the settled writer's. -/
theorem HoldsOpen.accepted_above {w : BlockWriter TimeFrontier} (h : HoldsOpen cut w effects)
    (hp : ∀ c ∈ cut, c < p.timeMs) (writer : Writer) (e : E) (row : Row) :
    HoldsOpen cut w (effects ++ [.accepted writer p e row]) := by
  refine ⟨fun k hk => (h.group k hk).accepted_of_ne ?_ writer e row, h.inside, h.empty⟩
  obtain ⟨c, hc, hle⟩ := hk
  have := hp c hc
  omega

theorem Buffers.silent {w : ConfirmationWindow TimeFrontier} (h : Buffers ks w effects)
    {x : Effect TimeFrontier E} (ha : x.accepted? = none) (hw : x.wrote? = none) :
    Buffers ks w (effects ++ [x]) :=
  ⟨fun k hk => (h.group k hk).silent ha hw, h.inside, h.schema⟩

theorem Buffers.accepted_outside {w : ConfirmationWindow TimeFrontier} (h : Buffers ks w effects)
    (hp : ¬ ks p.timeMs) (writer : Writer) (e : E) (row : Row) :
    Buffers ks w (effects ++ [.accepted writer p e row]) :=
  ⟨fun k hk => (h.group k hk).accepted_of_ne (fun heq => hp (heq ▸ hk)) writer e row, h.inside,
    h.schema⟩

theorem Buffers.wrote_outside {w : ConfirmationWindow TimeFrontier} (h : Buffers ks w effects)
    (hp : ¬ ks p.timeMs) (writer : Writer) (rows : List Row) :
    Buffers ks w (effects ++ [.wrote writer p rows]) :=
  ⟨fun k hk => (h.group k hk).wrote_of_ne (fun heq => hp (heq ▸ hk)) writer rows, h.inside,
    h.schema⟩

end Frames
/-! ### A row joins a group -/

section Joining

variable {effects : List (Effect TimeFrontier E)} {ks : Nat → Prop}
  {w : ConfirmationWindow TimeFrontier} {p : TimeFrontier}

theorem ConfirmationWindow.groupAt_joining (w : ConfirmationWindow TimeFrontier)
    (schema : TableSchema) (seeded : Bool) (p : TimeFrontier) (row : Row) (k : Nat) :
    (w.joining schema seeded p row).groupAt k
      = if k = p.timeMs then some (extended (w.groupAt p.timeMs) p row) else w.groupAt k := by
  unfold groupAt
  show ((w.pending.insert p.timeMs (joined seeded (w.pending[p.timeMs]?) p row))[k]?).map _ = _
  rw [getElem?_insert]
  by_cases hk : k = p.timeMs
  · rw [if_pos hk, if_pos hk]
    rcases w.pending[p.timeMs]? with _ | q <;> rfl
  · rw [if_neg hk, if_neg hk]

/-- A row joins the group at its instant. -/
theorem Buffers.joining (h : Buffers ks w effects) (hks : ks p.timeMs) (schema : TableSchema)
    (seeded : Bool) (e : E) (row : Row) :
    Buffers ks (w.joining schema seeded p row) (effects ++ [.accepted .window p e row]) where
  group k hk := by
    rw [w.groupAt_joining]
    split
    · rename_i heq
      subst heq
      exact (h.group _ hk).accepted .window e row
    · rename_i hne
      exact (h.group k hk).accepted_of_ne hne .window e row
  inside k q hq := by
    have hq' : (w.pending.insert p.timeMs
        (ConfirmationWindow.joined seeded (w.pending[p.timeMs]?) p row))[k]? = some q := hq
    rw [ConfirmationWindow.getElem?_insert] at hq'
    split at hq'
    · rename_i hk
      obtain rfl := Option.some.inj hq'
      refine ⟨hk ▸ hks, ?_⟩
      rcases hbase : w.pending[p.timeMs]? with _ | base
      · rfl
      · exact (h.inside p.timeMs base hbase).2
    · exact h.inside k q hq'
  schema _ _ _ := rfl

/-- What a window does not cover has no group that covers it, and its watermark does not. -/
theorem ConfirmationWindow.not_covered (hc : w.covered p = false) :
    (∀ g ∈ w.groupAt p.timeMs, Position.contains g.1 p = false) ∧
      ∀ v ∈ w.watermark, Position.contains v p = false := by
  unfold covered at hc
  obtain ⟨hwm, hgroup⟩ := Bool.or_eq_false_iff.mp hc
  refine ⟨fun g hg => ?_, fun v hv => ?_⟩
  · unfold groupAt at hg
    rcases hq : w.pending[p.timeMs]? with _ | q
    · rw [hq] at hg
      exact nomatch hg
    · rw [hq] at hg
      obtain rfl := Option.some.inj hg
      rw [show w.pending[Position.sortKey p]? = some q from hq, Option.any_some] at hgroup
      exact hgroup
  · rw [Option.mem_def.mp hv, Option.any_some] at hwm
    exact hwm

/-- What a window covers is known or passed. -/
theorem ConfirmationWindow.known_of_covered {stored : List TimeFrontier}
    {seed wm : Option TimeFrontier} {cut : Option Nat} (h : Tally stored seed cut wm effects)
    (hm : Marks (knownPairs stored effects) (Attained seed cut effects) w.watermark)
    (hg : GroupAt effects p.timeMs (w.groupAt p.timeMs)) (hp : ∃ i, p.seen = {i})
    (hc : w.covered p = true) :
    p ∈ knownPairs stored effects ∨ ∃ t, Attained seed cut effects t ∧ p.timeMs < t := by
  unfold covered at hc
  rcases Bool.or_eq_true_iff.mp hc with hc | hc
  · rcases hv : w.watermark with _ | v
    · rw [hv] at hc
      exact nomatch hc
    · rw [hv, Option.any_some] at hc
      exact hm.covered hv hc hp
  · rcases hq : w.pending[p.timeMs]? with _ | q
    · rw [show w.pending[Position.sortKey p]? = none from hq] at hc
      exact nomatch hc
    · rw [show w.pending[Position.sortKey p]? = some q from hq, Option.any_some] at hc
      have hgroup : w.groupAt p.timeMs = some (q.position, q.rows) := by
        unfold groupAt
        rw [hq]
        rfl
      rw [hgroup] at hg
      exact .inl (h.known_of_group hg hc hp)

/-- The window of a backfill takes in one more row. -/
theorem ConfirmationWindow.Seeded.joining {windowSeed : Option TimeFrontier} {cut : Option Nat}
    {depth hi : Nat} (h : Seeded windowSeed cut depth hi w) (hcut : ∀ c ∈ cut, c < p.timeMs)
    (hlo : level windowSeed ≤ p.timeMs) (hhi : p.timeMs ≤ hi) (schema : TableSchema)
    (seeded : Bool) (row : Row) :
    Seeded windowSeed cut depth hi (w.joining schema seeded p row) where
  watermark := h.watermark
  flushed := h.flushed
  depth_eq := h.depth_eq
  head k hk := by
    obtain rfl := Option.some.inj hk
    rcases hw : w.head with _ | old
    · exact hhi
    · exact Nat.max_le.mpr ⟨h.head old hw, hhi⟩
  pending k q hq := by
    have hq' : (w.pending.insert p.timeMs
        (joined seeded (w.pending[p.timeMs]?) p row))[k]? = some q := hq
    rw [getElem?_insert] at hq'
    split at hq'
    · rename_i hk
      obtain rfl := Option.some.inj hq'
      rw [hk]
      refine ⟨hcut, hlo, hhi, ?_⟩
      rcases hbase : w.pending[p.timeMs]? with _ | base
      · rfl
      · have hkey := (h.pending p.timeMs base hbase).2.2.2
        show Position.sortKey (Position.advance (some base.position) p) = p.timeMs
        rw [LawfulPosition.sortKey_advance, hkey]
        exact Nat.max_self _
    · exact h.pending k q hq'

end Joining
end ArtemisLight
