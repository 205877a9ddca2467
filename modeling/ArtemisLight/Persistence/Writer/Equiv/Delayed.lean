import ArtemisLight.Lib.Increasing
import ArtemisLight.Persistence.Scripted
import ArtemisLight.Persistence.Writer.Equiv.Groups
import ArtemisLight.Persistence.Writer.Equiv.Window

/-!
## The confirmation window as a delayed block writer

Over a stream in the order of its sort keys both writers keep the same groups.  The block writer has
written all but the last one; the window has written those that are buried `depth` deep under the
last one, and buffers the rest.
-/

namespace ArtemisLight

variable {σ ρ P E : Type} [Position P]

/-- The groups that are buried `depth` deep under the last one. -/
def Groups.ripe (depth : Nat) (g : Groups P) : List (P × List Row) :=
  g.closed.filter fun x =>
    g.last.any fun y => decide (Position.sortKey x.1 + depth ≤ Position.sortKey y.1)

namespace ConfirmationWindow

/-- A group as the window buffers it when nothing was rewound or seeded. -/
def plain (x : P × List Row) : Pending P := ⟨x.1, x.2, [], false⟩

/-- A healthy window that has written the ripe groups and buffers the others. -/
structure Delays (seed : Option P) (depth : Nat) (g : Groups P) (w : ConfirmationWindow P)
    (effects : List (Effect P E)) : Prop where
  healthy : w.core.healthy = true
  depth_eq : w.depth = depth
  schema : g.last.isSome → w.core.schema.isSome
  head : w.head = g.last.map fun x => Position.sortKey x.1
  pending : ∀ (k : Nat) p, w.pending[k]? = some p ↔
    ∃ x ∈ g.all, x ∉ g.ripe depth ∧ Position.sortKey x.1 = k ∧ p = plain x
  flushed : ∀ f ∈ w.flushed, (∃ s ∈ seed, f = Position.sortKey s) ∨
    ∃ x ∈ g.ripe depth, f = Position.sortKey x.1
  watermark : w.watermark = Groups.watermark seed (g.ripe depth)
  written : writes effects = g.ripe depth

/-! ### Flushing whole groups -/

section Flush

variable [Store σ P] {W : σ → Prop}

/-- A flush of plain groups writes them in order. -/
theorem flushLoop_plain (hW : Reliable P W) {schema : TableSchema} :
    ∀ (groups : List (P × List Row))
    (w : ConfirmationWindow P) (io : Io σ ρ P E), w.core.schema = some schema → W io.store →
      (groups.map fun x => Position.sortKey x.1).Nodup →
      (∀ x ∈ groups, w.pending[Position.sortKey x.1]? = some (plain x)) →
      ∃ w' io', w.flushLoop io (groups.map fun x => Position.sortKey x.1) = (w', io') ∧
        w'.core = w.core ∧ w'.depth = w.depth ∧ w'.head = w.head ∧
        (∀ k : Nat, w'.pending[k]? =
          if k ∈ groups.map fun x => Position.sortKey x.1 then none else w.pending[k]?) ∧
        (∀ f ∈ w'.flushed, f ∈ w.flushed ∨ ∃ x ∈ groups, f = Position.sortKey x.1) ∧
        w'.watermark = Groups.watermark w.watermark groups ∧
        writes io'.effects = writes io.effects ++ groups ∧ io'.record = io.record ∧
          W io'.store := by
  intro groups
  induction groups with
  | nil =>
    intro w io _ hs _ _
    refine ⟨w, io, rfl, rfl, rfl, rfl, fun k => ?_, fun f hf => .inl hf, rfl, ?_, rfl, hs⟩
    · simp
    · rw [List.append_nil]
  | cons x groups ih =>
    intro w io hschema hs hnodup hpending
    obtain ⟨hx, hnodup⟩ := List.nodup_cons.mp hnodup
    obtain ⟨store, hok, hstore⟩ := hW io.store hs schema x.1 x.2
    have hflush : w.core.flush io x.1 x.2 = (true, w.core,
        ({ io with store } : Io σ ρ P E).emit (.wrote w.core.writer x.1 x.2)) := by
      simp only [GapFreeWriter.flush, hschema, hok]
    -- the rest of the groups is flushed from the window without this one
    obtain ⟨w', io', hloop, hcore, hdepth, hhead, hpend, hflushed, hwm, hwrites, hrecord, hs'⟩ :=
      ih (w.finalize (Position.sortKey x.1) (plain x))
        (({ io with store } : Io σ ρ P E).emit (.wrote w.core.writer x.1 x.2)) hschema hstore hnodup
        (by
          intro y hy
          have hne : Position.sortKey y.1 ≠ Position.sortKey x.1 := fun heq =>
            hx (List.mem_map.mpr ⟨y, hy, heq⟩)
          rw [finalize, getElem?_erase, if_neg hne]
          exact hpending y (by simp [hy]))
    refine ⟨w', io', ?_, hcore, hdepth, hhead, ?_, ?_, hwm, ?_, hrecord, hs'⟩
    · rw [List.map_cons, flushLoop, hpending x (by simp)]
      simp only [plain, hflush]
      exact hloop
    · intro k
      rw [hpend, finalize, getElem?_erase, List.map_cons]
      by_cases hk : k = Position.sortKey x.1
      · simp [hk]
      · simp only [List.mem_cons, hk, false_or, if_false]
    · intro f hf
      rcases hflushed f hf with hf | ⟨y, hy, rfl⟩
      · rw [finalize, Option.mem_def, Option.some.injEq] at hf
        rcases hold : w.flushed with _ | f'
        · rw [hold] at hf
          exact .inr ⟨x, by simp, hf.symm⟩
        · rw [hold, Option.elim_some] at hf
          rcases Nat.le_total f' (Position.sortKey x.1) with hle | hle
          · rw [Nat.max_eq_right hle] at hf
            exact .inr ⟨x, by simp, hf.symm⟩
          · rw [Nat.max_eq_left hle] at hf
            exact .inl (by rw [← hf]; rfl)
      · exact .inr ⟨y, by simp [hy], rfl⟩
    · rw [hwrites, Io.emit_effects, writes_append, List.append_assoc]
      rfl

end Flush

/-! ### Ripe groups -/

section Ripe

variable {seed : Option P} {depth : Nat} {g : Groups P} {position : P} {row : Row}

theorem ripe_of_last {y : P × List Row} (h : g.last = some y) : g.ripe depth
    = g.closed.filter fun x => decide (Position.sortKey x.1 + depth ≤ Position.sortKey y.1) := by
  unfold Groups.ripe
  rw [h]
  rfl

theorem mem_closed_of_mem_ripe {x : P × List Row} (h : x ∈ g.ripe depth) : x ∈ g.closed :=
  (List.mem_filter.mp h).1

/-- Groups that are newly closed are not yet ripe under the old head. -/
theorem ripe_eq_filter_add (position : P) (row : Row) (hg : g.Ordered seed) (hdepth : 0 < depth) :
    g.ripe depth = (g.add position row).closed.filter fun x =>
      decide (Position.sortKey x.1 + depth ≤ g.last.elim 0 fun y => Position.sortKey y.1) := by
  unfold Groups.add
  rcases hlast : g.last with _ | ⟨cur, rows⟩
  · unfold Groups.ripe
    rw [hg.fresh hlast]
    rfl
  · rw [ripe_of_last hlast]
    have hnil : [(cur, rows)].filter (fun x =>
        decide (Position.sortKey x.1 + depth ≤ Position.sortKey cur)) = [] := by
      rw [List.filter_eq_nil_iff]
      intro x hx
      rw [List.mem_singleton] at hx
      rw [hx, decide_eq_true_eq]
      show ¬ Position.sortKey cur + depth ≤ Position.sortKey cur
      omega
    by_cases hlt : Position.sortKey cur < Position.sortKey position
    · simp only [if_pos hlt]
      show _ = List.filter (fun x => decide (Position.sortKey x.1 + depth ≤ Position.sortKey cur))
        (g.closed ++ [(cur, rows)])
      rw [List.filter_append, hnil, List.append_nil]
    · simp only [if_neg hlt]
      rfl

/-- The groups that ripen with one more row. -/
def newlyRipe (depth : Nat) (g : Groups P) (position : P) (row : Row) : List (P × List Row) :=
  (g.add position row).closed.filter fun x => decide
    ((g.last.elim 0 fun y => Position.sortKey y.1) < Position.sortKey x.1 + depth ∧
      Position.sortKey x.1 + depth ≤ Position.sortKey position)

theorem mem_newlyRipe {x : P × List Row} : x ∈ newlyRipe depth g position row ↔
    x ∈ (g.add position row).closed ∧
      (g.last.elim 0 fun y => Position.sortKey y.1) < Position.sortKey x.1 + depth ∧
      Position.sortKey x.1 + depth ≤ Position.sortKey position := by
  rw [newlyRipe, List.mem_filter, decide_eq_true_eq]

/-- What ripens with a row is one of the groups, and was not ripe before. -/
theorem mem_all_of_newlyRipe (hg : g.Ordered seed) (hdepth : 0 < depth) {x : P × List Row}
    (hx : x ∈ newlyRipe depth g position row) :
    x ∈ (g.add position row).all ∧ x ∉ g.ripe depth := by
  obtain ⟨hclosed, hyoung, -⟩ := mem_newlyRipe.mp hx
  refine ⟨Groups.mem_all.mpr (.inl hclosed), ?_⟩
  rw [ripe_eq_filter_add position row hg hdepth, List.mem_filter, decide_eq_true_eq]
  exact fun hold => absurd hold.2 (Nat.not_le.mpr hyoung)

variable [LawfulPosition P]

theorem ripe_add (row : Row) (hg : g.Ordered seed) (hdepth : 0 < depth)
    (hle : ∀ x ∈ g.last, Position.sortKey x.1 ≤ Position.sortKey position)
    (hs : ∀ s ∈ seed, Position.sortKey s ≤ Position.sortKey position) :
    (g.add position row).ripe depth = g.ripe depth ++ newlyRipe depth g position row := by
  obtain ⟨new, hnew, hkey⟩ := Groups.exists_last_add row hle
  rw [ripe_of_last hnew, hkey, ripe_eq_filter_add position row hg hdepth]
  apply filter_le_append
  · exact (hg.add row hle hs).closed.imp fun hlt => Nat.add_le_add_right (Nat.le_of_lt hlt) _
  · rcases hlast : g.last with _ | y
    · exact Nat.zero_le _
    · exact hle y hlast

end Ripe

/-! ### Recording in order -/

section Record

variable [Store σ P] [RecordOps ρ E] {w : ConfirmationWindow P} {io : Io σ ρ P E} {position : P}
  {event : E} {row : Row}

/-- A group with one more row. -/
def extended (base : Option (P × List Row)) (position : P) (row : Row) : P × List Row :=
  match base with
  | none => (position, [row])
  | some x => (Position.advance (some x.1) position, x.2 ++ [row])

/-- The window after it took in one more row at the head. -/
def appended (w : ConfirmationWindow P) (schema : TableSchema) (position : P) (row : Row)
    (base : Option (P × List Row)) : ConfirmationWindow P :=
  { w.withSchema schema with
    pending := w.pending.insert (Position.sortKey position) (plain (extended base position row))
    head := some (Position.sortKey position) }

theorem record_dropped (hh : w.core.healthy = true) (hP : Position.reobservation P = .dedupe)
    (hc : w.covered position = true) : w.record io position event = (w, io, false) := by
  simp [record, hh, hP, hc]

/-- An event at or above the head, on a plain group or on none, is appended; nothing is rewound. -/
theorem record_plain (event : E) (hh : w.core.healthy = true)
    (hnot : ¬ (Position.reobservation P = .dedupe ∧ w.covered position = true))
    (hflushed : Position.reobservation P = .halt → ∀ f ∈ w.flushed, f < Position.sortKey position)
    (hhead : ∀ h ∈ w.head, h ≤ Position.sortKey position) {base : Option (P × List Row)}
    (hbase : w.pending[Position.sortKey position]? = base.map plain) {record : ρ}
    (he : RecordOps.encode io.record event = (.ok row, record)) :
    ∃ schema, w.record io position event =
      (((w.appended schema position row base).flushMatured
          (({ io with record } : Io σ ρ P E).emit (.accepted .window position event row))).1,
        ((w.appended schema position row base).flushMatured
          (({ io with record } : Io σ ρ P E).emit (.accepted .window position event row))).2,
            true) := by
  rcases GapFreeWriter.encode_cases w.core io event with
    ⟨row', schema, record', he', hc⟩ | ⟨e, record', he', -⟩
  · obtain ⟨hrow, rfl⟩ := Prod.mk.inj (he.symm.trans he')
    obtain rfl := Except.ok.inj hrow
    refine ⟨schema, ?_⟩
    have hany : ¬ (Position.reobservation P = .halt ∧
        (w.flushed.any fun f => decide (Position.sortKey position ≤ f)) = true) := by
      rintro ⟨hP, hany⟩
      rcases hf : w.flushed with _ | f
      · rw [hf] at hany
        exact absurd hany (by simp)
      · rw [hf, Option.any_some, decide_eq_true_eq] at hany
        have := hflushed hP f hf
        omega
    have hreorg : (w.head.any fun h => decide (Position.sortKey position < h)) = false := by
      rcases hh : w.head with _ | h
      · rfl
      · rw [Option.any_some, decide_eq_false_iff_not]
        exact Nat.not_lt.mpr (hhead h hh)
    have hmax : w.head.elim (Position.sortKey position) (max · (Position.sortKey position))
        = Position.sortKey position := by
      rcases hh : w.head with _ | h
      · rfl
      · exact Nat.max_eq_right (hhead h hh)
    have haccept : (w.withSchema schema).accept ({ io with record } : Io σ ρ P E) position event row
        = (w.appended schema position row base,
            ({ io with record } : Io σ ρ P E).emit (.accepted .window position event row),
              true) := by
      unfold withSchema accept fold
      simp only [hreorg, and_false, decide_false, if_false, Bool.false_eq_true, hbase]
      rcases base with _ | x
      · simp only [Option.map_none, hmax]
        rfl
      · simp only [Option.map_some, plain, and_false, decide_false, Bool.false_eq_true, if_false,
          List.not_mem_nil, not_false_eq_true, decide_true, if_true, hmax]
        rfl
    have hh' : (!w.core.healthy) = false := by rw [hh]; rfl
    unfold ConfirmationWindow.record
    simp only [hh', Bool.false_eq_true, if_false, hnot, hany, hc]
    simp only [withSchema] at haccept
    simp only [haccept]
  · exact absurd ((Prod.mk.inj (he.symm.trans he')).1) (by simp)

end Record

/-! ### The window keeps the groups -/

section Delays

variable {seed : Option P} {depth : Nat} {g : Groups P} {w : ConfirmationWindow P}

theorem Delays.new (seed : Option P) (depth : Nat) :
    Delays (E := E) seed depth Groups.empty (ConfirmationWindow.new depth seed) [] where
  healthy := rfl
  depth_eq := rfl
  schema h := nomatch h
  head := rfl
  pending k p := by
    simp [ConfirmationWindow.new, Groups.empty]
  flushed f hf := by
    obtain ⟨s, hs, rfl⟩ := Option.map_eq_some_iff.mp hf
    exact .inl ⟨s, hs, rfl⟩
  watermark := rfl
  written := rfl

variable {effects : List (Effect P E)} {position : P} {row : Row}

/-- The pending group at or above the head. -/
theorem Delays.pending_head (h : Delays seed depth g w effects) (hg : g.Ordered seed)
    (hle : ∀ x ∈ g.last, Position.sortKey x.1 ≤ Position.sortKey position) :
    w.pending[Position.sortKey position]?
      = (g.last.filter fun x => decide (Position.sortKey x.1 = Position.sortKey position)).map
        plain := by
  by_cases hlast : ∃ y, g.last = some y ∧ Position.sortKey y.1 = Position.sortKey position
  · obtain ⟨y, hlast, hkey⟩ := hlast
    simp only [hlast, Option.filter_some, hkey, decide_true, if_true, Option.map_some]
    rw [h.pending]
    refine ⟨y, Groups.mem_all.mpr (.inr hlast), fun hripe => ?_, hkey, rfl⟩
    exact absurd (hg.closed_lt y (mem_closed_of_mem_ripe hripe) y hlast) (Nat.lt_irrefl _)
  · have hnone : g.last.filter (fun x => decide (Position.sortKey x.1 = Position.sortKey position))
        = none := by
      rw [Option.filter_eq_none_iff]
      intro y hy hkey
      exact hlast ⟨y, hy, of_decide_eq_true hkey⟩
    rw [hnone, Option.map_none, Option.eq_none_iff_forall_ne_some]
    intro p hp
    obtain ⟨x, hx, -, hkey, -⟩ := (h.pending _ p).mp hp
    rcases hl : g.last with _ | y
    · rw [Groups.mem_all, hg.fresh hl, hl] at hx
      simp at hx
    · have h₁ := hg.le_last hl x hx
      have h₂ := hle y hl
      exact hlast ⟨y, hl, by omega⟩

variable [LawfulPosition P]

/-- Both writers cover the same positions at or above the head. -/
theorem Delays.covered_eq (h : Delays seed depth g w effects) (hg : g.Ordered seed)
    (hle : ∀ x ∈ g.last, Position.sortKey x.1 ≤ Position.sortKey position) :
    w.covered position = g.covered seed position := by
  unfold covered Groups.covered
  rw [h.pending_head hg hle, h.watermark]
  congr 1
  · by_cases hclosed : g.closed = []
    · unfold Groups.ripe
      rw [hclosed]
      rfl
    · rw [hg.watermark_any (fun x hx => mem_closed_of_mem_ripe hx) hclosed hle,
        hg.watermark_any (fun x hx => hx) hclosed hle]
  · rcases g.last with _ | y
    · rfl
    · by_cases hkey : Position.sortKey y.1 = Position.sortKey position
      · simp [Option.filter_some_pos, hkey, plain]
      · simp [Option.filter_some_neg, hkey]

variable [Store σ P] [RecordOps ρ E] {W : σ → Prop} {io : Io σ ρ P E} {event : E}

omit [LawfulPosition P] [Store σ P] [RecordOps ρ E] in
/-- The last group is the base with one more row. -/
theorem last_add (row : Row)
    (hle : ∀ x ∈ g.last, Position.sortKey x.1 ≤ Position.sortKey position) :
    (g.add position row).last = some (extended (g.last.filter fun x =>
      decide (Position.sortKey x.1 = Position.sortKey position)) position row) := by
  unfold Groups.add
  rcases hlast : g.last with _ | ⟨cur, rows⟩
  · rfl
  · have hcur : Position.sortKey cur ≤ Position.sortKey position := hle _ hlast
    by_cases hlt : Position.sortKey cur < Position.sortKey position
    · have hne : ¬ Position.sortKey cur = Position.sortKey position := Nat.ne_of_lt hlt
      simp [if_pos hlt, Option.filter_some_neg, hne, extended]
    · have heq : Position.sortKey cur = Position.sortKey position := by omega
      simp [heq, Option.filter_some_pos, extended]

/-- What is pending after one more row, before anything is flushed. -/
theorem Delays.pending_appended (h : Delays seed depth g w effects) (row : Row)
    (hg : g.Ordered seed)
    (hle : ∀ x ∈ g.last, Position.sortKey x.1 ≤ Position.sortKey position)
    (hs : ∀ s ∈ seed, Position.sortKey s ≤ Position.sortKey position) (schema : TableSchema)
    (k : Nat) (p : Pending P) :
    (w.appended schema position row (g.last.filter fun x =>
        decide (Position.sortKey x.1 = Position.sortKey position))).pending[k]? = some p ↔
      ∃ x ∈ (g.add position row).all, x ∉ g.ripe depth ∧ Position.sortKey x.1 = k ∧
        p = plain x := by
  obtain ⟨new, hnew, hkey⟩ := Groups.exists_last_add row hle
  have hext := Option.some.inj (hnew.symm.trans (last_add row hle))
  show (w.pending.insert (Position.sortKey position) _)[k]? = some p ↔ _
  rw [getElem?_insert, ← hext]
  by_cases hk : k = Position.sortKey position
  · rw [if_pos hk, Option.some.injEq]
    constructor
    · rintro rfl
      refine ⟨new, Groups.mem_all.mpr (.inr hnew), fun hripe => ?_, hkey.trans hk.symm, rfl⟩
      rcases hlast : g.last with _ | y
      · exact absurd (mem_closed_of_mem_ripe hripe) (by rw [hg.fresh hlast]; simp)
      · have := hg.closed_lt new (mem_closed_of_mem_ripe hripe) y hlast
        have := hle y hlast
        omega
    · rintro ⟨x, hx, -, hxk, rfl⟩
      rcases Groups.mem_all.mp hx with hx | hx
      · have := (hg.add row hle hs).closed_lt x hx new hnew
        omega
      · rw [Option.some.inj (hnew.symm.trans hx)]
  · rw [if_neg hk]
    show w.pending[k]? = some p ↔ _
    rw [h.pending]
    constructor
    · rintro ⟨x, hx, hripe, hxk, rfl⟩
      exact ⟨x, (hg.mem_all_add hle (by rwa [hxk])).mpr hx, hripe, hxk, rfl⟩
    · rintro ⟨x, hx, hripe, hxk, rfl⟩
      exact ⟨x, (hg.mem_all_add hle (by rwa [hxk])).mp hx, hripe, hxk, rfl⟩

omit [LawfulPosition P] in
/-- Nothing written reaches the next event of a halting source. -/
theorem Delays.flushed_lt (h : Delays seed depth g w effects) (hg : g.Ordered seed)
    (hle : ∀ x ∈ g.last, Position.sortKey x.1 ≤ Position.sortKey position)
    (habove : ∀ s ∈ seed, Position.sortKey s < Position.sortKey position) :
    ∀ f ∈ w.flushed, f < Position.sortKey position := by
  intro f hf
  rcases h.flushed f hf with ⟨s, hs, rfl⟩ | ⟨x, hx, rfl⟩
  · exact habove s hs
  · have hclosed := mem_closed_of_mem_ripe hx
    rcases hlast : g.last with _ | y
    · rw [hg.fresh hlast] at hclosed
      exact absurd hclosed List.not_mem_nil
    · exact Nat.lt_of_lt_of_le (hg.closed_lt x hclosed y hlast) (hle y hlast)

/-- After one more row, the matured keys are those of the newly ripe groups. -/
theorem Delays.matured_appended (h : Delays seed depth g w effects) (row : Row)
    (hg : g.Ordered seed)
    (hdepth : 0 < depth)
    (hle : ∀ x ∈ g.last, Position.sortKey x.1 ≤ Position.sortKey position)
    (hs : ∀ s ∈ seed, Position.sortKey s ≤ Position.sortKey position)
    (hfit : Position.sortKey position + depth ≤ u64Max) (schema : TableSchema) :
    (w.appended schema position row (g.last.filter fun x =>
        decide (Position.sortKey x.1 = Position.sortKey position))).matured
          (Position.sortKey position)
      = (newlyRipe depth g position row).map fun x => Position.sortKey x.1 := by
  have hpending := h.pending_appended row hg hle hs schema
  have hg' := hg.add row hle hs
  have hripe := ripe_eq_filter_add position row hg hdepth
  obtain ⟨new, hnew, hkey⟩ := Groups.exists_last_add row hle
  have hle' : ∀ x ∈ (g.add position row).all, Position.sortKey x.1 ≤ Position.sortKey position := by
    intro x hx
    rw [← hkey]
    exact hg'.le_last hnew x hx
  have hdepth' : (w.appended schema position row (g.last.filter fun x =>
      decide (Position.sortKey x.1 = Position.sortKey position))).depth = depth := h.depth_eq
  -- both lists increase, so it is enough that they have the same keys
  apply eq_of_increasing (matured_pairwise _ _)
  · rw [List.pairwise_map]
    exact hg'.closed.filter _
  · intro k
    rw [mem_matured, List.mem_map, hdepth']
    constructor
    · rintro ⟨⟨p, hp⟩, hmature⟩
      obtain ⟨x, hx, hnot, rfl, -⟩ := (hpending k p).mp hp
      have hxk := hle' x hx
      rw [saturatingAdd_of_le (by omega)] at hmature
      have hxc : x ∈ (g.add position row).closed := by
        rcases Groups.mem_all.mp hx with hx | hx
        · exact hx
        · -- the last group is not buried under itself
          obtain rfl := Option.some.inj (hnew.symm.trans hx)
          omega
      rw [hripe, List.mem_filter, decide_eq_true_eq] at hnot
      exact ⟨x, mem_newlyRipe.mpr ⟨hxc, Nat.lt_of_not_le fun hold => hnot ⟨hxc, hold⟩, hmature⟩,
        rfl⟩
    · rintro ⟨x, hx, rfl⟩
      obtain ⟨-, -, hmature⟩ := mem_newlyRipe.mp hx
      obtain ⟨hxa, hnot⟩ := mem_all_of_newlyRipe hg hdepth hx
      have hxk := hle' x hxa
      rw [saturatingAdd_of_le (by omega)]
      exact ⟨⟨plain x, (hpending _ _).mpr ⟨x, hxa, hnot, rfl, rfl⟩⟩, hmature⟩

omit [LawfulPosition P] [Store σ P] [RecordOps ρ E] in
/-- If all groups but the `old` ones are pending and some more of them are flushed, then all but
these are. -/
theorem pending_flushed {w' : ConfirmationWindow P} {old new : List (P × List Row)}
    (hg : g.Ordered seed) (hnew : ∀ x ∈ new, x ∈ g.all)
    (hpending : ∀ k p, w.pending[k]? = some p ↔
      ∃ x ∈ g.all, x ∉ old ∧ Position.sortKey x.1 = k ∧ p = plain x)
    (hflush : ∀ k : Nat, w'.pending[k]?
      = if k ∈ new.map fun x => Position.sortKey x.1 then none else w.pending[k]?)
    (k : Nat) (p : Pending P) : w'.pending[k]? = some p ↔
      ∃ x ∈ g.all, x ∉ old ++ new ∧ Position.sortKey x.1 = k ∧ p = plain x := by
  rw [hflush]
  split
  · rename_i hk
    obtain ⟨y, hy, rfl⟩ := List.mem_map.mp hk
    constructor
    · intro hnone
      exact nomatch hnone
    · rintro ⟨x, hx, hnot, hxy, -⟩
      obtain rfl := hg.eq_of_key hx (hnew y hy) hxy
      exact absurd (List.mem_append_right _ hy) hnot
  · rename_i hk
    rw [hpending]
    constructor
    · rintro ⟨x, hx, hnot, hxk, rfl⟩
      refine ⟨x, hx, fun hmem => ?_, hxk, rfl⟩
      rcases List.mem_append.mp hmem with hmem | hmem
      · exact hnot hmem
      · exact hk (List.mem_map.mpr ⟨x, hmem, hxk⟩)
    · rintro ⟨x, hx, hnot, hxk, rfl⟩
      exact ⟨x, hx, fun hmem => hnot (List.mem_append_left _ hmem), hxk, rfl⟩

/-- An event that is not dropped adds its row to the groups, and what it buries is written. -/
theorem Delays.record (hW : Reliable P W) (h : Delays seed depth g w io.effects)
    (hg : g.Ordered seed) (hdepth : 0 < depth) (hs : W io.store) {record : ρ}
    (he : RecordOps.encode io.record event = (.ok row, record)) (hd : ¬ g.Drops seed position)
    (hle : ∀ x ∈ g.last, Position.sortKey x.1 ≤ Position.sortKey position)
    (habove : Position.reobservation P = .halt →
      ∀ s ∈ seed, Position.sortKey s < Position.sortKey position)
    (hseed : ∀ s ∈ seed, Position.sortKey s ≤ Position.sortKey position)
    (hfit : Position.sortKey position + depth ≤ u64Max) :
    ∃ w' io', w.record io position event = (w', io', true) ∧ io'.record = record ∧ W io'.store ∧
      Delays seed depth (g.add position row) w' io'.effects := by
  have hnot : ¬ (Position.reobservation P = .dedupe ∧ w.covered position = true) := by
    rw [h.covered_eq hg hle]
    exact hd
  have hhead : ∀ b ∈ w.head, b ≤ Position.sortKey position := by
    intro b hb
    rw [h.head] at hb
    obtain ⟨y, hy, rfl⟩ := Option.map_eq_some_iff.mp hb
    exact hle y hy
  obtain ⟨schema, hrecord⟩ := record_plain event h.healthy hnot
    (fun hP => h.flushed_lt hg hle (habove hP)) hhead (h.pending_head hg hle) he
  have hpending := h.pending_appended row hg hle hseed schema
  have hmatured := h.matured_appended row hg hdepth hle hseed hfit schema
  generalize hw₁ : w.appended schema position row _ = w₁ at hrecord hpending hmatured
  generalize hio₁ : ({ io with record } : Io σ ρ P E).emit _ = io₁ at hrecord
  obtain ⟨new, hnew, hkey⟩ := Groups.exists_last_add row hle
  -- what ripens now is still pending, as one of the groups
  have hplain : ∀ x ∈ newlyRipe depth g position row,
      w₁.pending[Position.sortKey x.1]? = some (plain x) := by
    intro x hx
    obtain ⟨hxa, hold⟩ := mem_all_of_newlyRipe hg hdepth hx
    exact (hpending _ _).mpr ⟨x, hxa, hold, rfl, rfl⟩
  have hnodup : ((newlyRipe depth g position row).map fun x => Position.sortKey x.1).Nodup := by
    rw [← hmatured]
    exact (matured_pairwise w₁ _).imp fun hlt => Nat.ne_of_lt hlt
  -- all of it is written, in ascending order
  obtain ⟨w', io', hloop, hcore, hdepth', hhead', hpend', hflushed', hwm, hwrites, hrec, hs'⟩ :=
    flushLoop_plain hW (newlyRipe depth g position row) w₁ io₁ (by rw [← hw₁]; rfl)
      (by rw [← hio₁]; exact hs) hnodup hplain
  have hflush : w₁.flushMatured io₁ = (w', io') := by
    rw [← hloop, ← hmatured, ← hw₁]
    rfl
  have hadd := ripe_add row hg hdepth hle hseed
  refine ⟨w', io', by rw [hrecord, hflush], by rw [hrec, ← hio₁]; rfl, hs', ?_⟩
  rw [← hw₁] at hcore hdepth' hhead' hwm hflushed'
  refine ⟨by rw [hcore]; exact h.healthy, hdepth'.trans h.depth_eq, fun _ => by rw [hcore]; rfl, ?_,
    fun k p => ?_, fun f hf => ?_, ?_, ?_⟩
  · rw [hhead', hnew, Option.map_some, hkey]
    rfl
  · rw [hadd]
    exact pending_flushed (hg.add row hle hseed)
      (fun x hx => (mem_all_of_newlyRipe hg hdepth hx).1) hpending hpend' k p
  · rw [hadd]
    rcases hflushed' f hf with hf | ⟨x, hx, rfl⟩
    · rcases h.flushed f hf with hseed' | ⟨x, hx, rfl⟩
      · exact .inl hseed'
      · exact .inr ⟨x, List.mem_append_left _ hx, rfl⟩
    · exact .inr ⟨x, List.mem_append_right _ hx, rfl⟩
  · rw [hwm, hadd, Groups.watermark_append, ← h.watermark]
    rfl
  · rw [hwrites, hadd, ← h.written, ← hio₁, Io.emit_effects, writes_append]
    exact congrArg (· ++ _) (List.append_nil _)

end Delays

end ConfirmationWindow

/-! ### Both writers over one stream -/

section Both

variable [LawfulPosition P] [Store σ P] [RecordOps ρ E] {W : σ → Prop} {D : E → Prop}
  {R : ρ → Prop} {seed : Option P} {depth : Nat}

/-- The two writers after the same events. -/
structure Lagging (W : σ → Prop) (R : ρ → Prop) (seed : Option P) (depth : Nat) (g : Groups P)
    (block : BlockWriter P) (io : Io σ ρ P E) (window : ConfirmationWindow P) (io' : Io σ ρ P E) :
    Prop where
  ordered : g.Ordered seed
  block : block.Holds seed g io.effects
  window : window.Delays seed depth g io'.effects
  store : W io.store
  store' : W io'.store
  record : R io.record
  same : io'.record = io.record

omit [Store σ P] [RecordOps ρ E] in
/-- An event that is not dropped is not below the seed. -/
theorem Groups.Ordered.seed_le {g : Groups P} (hg : g.Ordered seed) {position : P}
    (hd : ¬ g.Drops seed position)
    (hle : ∀ x ∈ g.last, Position.sortKey x.1 ≤ Position.sortKey position)
    (habove : Position.reobservation P = .halt →
      ∀ s ∈ seed, Position.sortKey s < Position.sortKey position) :
    ∀ s ∈ seed, Position.sortKey s ≤ Position.sortKey position := by
  intro s hs
  cases hP : Position.reobservation P with
  | halt => exact Nat.le_of_lt (habove hP s hs)
  | dedupe =>
    rcases hlast : g.last with _ | y
    · by_contra hlt
      refine hd ⟨hP, Bool.or_eq_true_iff.mpr (.inl ?_)⟩
      rw [hg.fresh hlast, Option.mem_def.mp hs]
      exact LawfulPosition.contains_of_lt s position (Nat.lt_of_not_le hlt)
    · exact Nat.le_trans (hg.above s hs y (Groups.mem_all.mpr (.inr hlast))) (hle y hlast)

/-- One event, with the verdict that both writers give. -/
theorem Lagging.step (hW : Reliable P W) (hR : Encodes D R) (hdepth : 0 < depth) {g : Groups P}
    {block : BlockWriter P} {io : Io σ ρ P E} {window : ConfirmationWindow P} {io' : Io σ ρ P E}
    (h : Lagging W R seed depth g block io window io') {position : P} {event : E} (he : D event)
    (hle : ∀ x ∈ g.last, Position.sortKey x.1 ≤ Position.sortKey position)
    (habove : Position.reobservation P = .halt →
      ∀ s ∈ seed, Position.sortKey s < Position.sortKey position)
    (hfit : Position.sortKey position + depth ≤ u64Max) :
    ∃ g', (∀ x ∈ g'.last, Position.sortKey x.1 ≤ Position.sortKey position) ∧
      Lagging W R seed depth g' (block.record io position event).1
        (block.record io position event).2.1
        (window.record io' position event).1 (window.record io' position event).2.1 ∧
      (window.record io' position event).2.2 = (block.record io position event).2.2 := by
  by_cases hd : g.Drops seed position
  · have hcovered : window.covered position = true :=
      (h.window.covered_eq h.ordered hle).trans hd.2
    rw [h.block.record_dropped event hd,
      ConfirmationWindow.record_dropped h.window.healthy hd.1 hcovered]
    exact ⟨g, hle, h, rfl⟩
  · obtain ⟨row, record, hrow, hr⟩ := hR io.record h.record event he
    have hrow' : RecordOps.encode io'.record event = (.ok row, record) := by rw [h.same, hrow]
    have hseed := h.ordered.seed_le hd hle habove
    obtain ⟨block', io₁, hb, hrec, hs, hholds⟩ :=
      h.block.record hW h.store hrow hd hle
    obtain ⟨window', io₁', hw, hrec', hs', hdelays⟩ :=
      h.window.record hW h.ordered hdepth h.store' hrow' hd hle habove hseed hfit
    rw [hb, hw]
    obtain ⟨new, hnew, hkey⟩ := Groups.exists_last_add row hle
    refine ⟨g.add position row, fun x hx => ?_,
      ⟨h.ordered.add row hle hseed, hholds, hdelays, hs, hs',
      by rw [hrec]; exact hr, hrec'.trans hrec.symm⟩, rfl⟩
    rw [Option.some.inj (hx.symm.trans hnew), hkey]

/-- A stream in the order of its sort keys. -/
theorem Lagging.run (hW : Reliable P W) (hR : Encodes D R) (hdepth : 0 < depth)
    (events : List (P × E)) : ∀ {g : Groups P} {block : BlockWriter P} {io : Io σ ρ P E}
      {window : ConfirmationWindow P} {io' : Io σ ρ P E},
    Lagging W R seed depth g block io window io' →
    (events.Pairwise fun x y => Position.sortKey x.1 ≤ Position.sortKey y.1) →
    (∀ x ∈ events, D x.2) →
    (∀ x ∈ events, ∀ y ∈ g.last, Position.sortKey y.1 ≤ Position.sortKey x.1) →
    (Position.reobservation P = .halt →
      ∀ s ∈ seed, ∀ x ∈ events, Position.sortKey s < Position.sortKey x.1) →
    (∀ x ∈ events, Position.sortKey x.1 + depth ≤ u64Max) →
    ∃ g', Lagging W R seed depth g' (recordAll BlockWriter.record block io events).1
        (recordAll BlockWriter.record block io events).2.1
        (recordAll ConfirmationWindow.record window io' events).1
        (recordAll ConfirmationWindow.record window io' events).2.1 ∧
      (recordAll ConfirmationWindow.record window io' events).2.2
        = (recordAll BlockWriter.record block io events).2.2 := by
  induction events with
  | nil => exact fun h _ _ _ _ _ => ⟨_, h, rfl⟩
  | cons x events ih =>
    intro g block io window io' h hsorted hD hle habove hfit
    obtain ⟨hx, hsorted⟩ := List.pairwise_cons.mp hsorted
    obtain ⟨g', hlast, hlag, hverdict⟩ := h.step hW hR hdepth (hD x (by simp)) (hle x (by simp))
      (fun hP s hs => habove hP s hs x (by simp)) (hfit x (by simp))
    obtain ⟨g'', hlag', hverdicts⟩ := ih hlag hsorted (fun y hy => hD y (by simp [hy]))
      (fun y hy z hz => Nat.le_trans (hlast z hz) (hx y hy))
      (fun hP s hs y hy => habove hP s hs y (by simp [hy])) (fun y hy => hfit y (by simp [hy]))
    rw [recordAll_cons, recordAll_cons]
    exact ⟨g'', hlag', congrArg₂ List.cons hverdict hverdicts⟩

/-- Over any stream in the order of its sort keys, the window gives the verdicts of the block
writer, and writes the prefix of the block writer's groups that is buried `depth` deep under its
head; with depth one that is what the block writer writes before it finishes. -/
theorem window_delays_block_writer (hW : Reliable P W) (hR : Encodes D R) (hdepth : 0 < depth)
    (seed : Option P) {events : List (P × E)}
    (hsorted : events.Pairwise fun x y => Position.sortKey x.1 ≤ Position.sortKey y.1)
    (habove : Position.reobservation P = .halt →
      ∀ s ∈ seed, ∀ x ∈ events, Position.sortKey s < Position.sortKey x.1)
    (hfit : ∀ x ∈ events, Position.sortKey x.1 + depth ≤ u64Max) (hD : ∀ x ∈ events, D x.2)
    {store store' : σ} (hs : W store) (hs' : W store') {record : ρ} (hr : R record)
    {block : BlockWriter P} {window : ConfirmationWindow P} {io io' : Io σ ρ P E}
    {verdicts verdicts' : List Bool}
    (hblock : recordAll BlockWriter.record (.new seed) ⟨store, record, []⟩ events
      = (block, io, verdicts))
    (hwindow : recordAll ConfirmationWindow.record (.new depth seed) ⟨store', record, []⟩ events
      = (window, io', verdicts')) :
    verdicts' = verdicts ∧
      writes io'.effects = (writes (block.finish io).2.effects).filter (fun group =>
        window.head.any fun head => decide (Position.sortKey group.1 + depth ≤ head)) ∧
      writes io'.effects <+: writes (block.finish io).2.effects ∧
      (depth = 1 → writes io'.effects = writes io.effects) := by
  have hstart : Lagging (E := E) W R seed depth Groups.empty (.new seed) ⟨store, record, []⟩
      (.new depth seed) ⟨store', record, []⟩ :=
    ⟨.empty seed, .new seed, .new seed depth, hs, hs', hr, rfl⟩
  obtain ⟨g, h, hverdicts⟩ := hstart.run hW hR hdepth events hsorted hD (fun _ _ _ hy => nomatch hy)
    habove hfit
  rw [hblock, hwindow] at h hverdicts
  simp only at h hverdicts
  obtain ⟨hfinish, -⟩ := h.block.finish hW h.store
  have hall : g.ripe depth = g.all.filter fun group =>
      window.head.any fun head => decide (Position.sortKey group.1 + depth ≤ head) := by
    rw [h.window.head, Groups.all, List.filter_append]
    rcases hlast : g.last with _ | y
    · unfold Groups.ripe
      rw [hlast]
      simp
    · rw [ConfirmationWindow.ripe_of_last hlast]
      simp [hdepth]
  refine ⟨hverdicts, ?_, ?_, ?_⟩
  · rw [h.window.written, hfinish, hall]
  · rw [h.window.written, hfinish, Groups.all]
    apply List.IsPrefix.trans _ (List.prefix_append _ _)
    rcases hlast : g.last with _ | y
    · unfold Groups.ripe
      rw [hlast]
      simp
    · rw [ConfirmationWindow.ripe_of_last hlast]
      exact filter_le_isPrefix
        (h.ordered.closed.imp fun hlt => Nat.add_le_add_right (Nat.le_of_lt hlt) _) _
  · rintro rfl
    rw [h.window.written, h.block.written]
    rcases hlast : g.last with _ | y
    · unfold Groups.ripe
      rw [h.ordered.fresh hlast]
      rfl
    · rw [ConfirmationWindow.ripe_of_last hlast, List.filter_eq_self]
      intro x hx
      exact decide_eq_true (h.ordered.closed_lt x hx y hlast)

end Both

/-- A frontier source that reports an identity twice. -/
def reobserved : List (TimeFrontier × ValueSet) :=
  [(⟨5, {"a"}⟩, ⟨1⟩), (⟨5, {"b"}⟩, ⟨2⟩), (⟨5, {"a"}⟩, ⟨1⟩), (⟨6, {"c"}⟩, ⟨3⟩), (⟨9, {"d"}⟩, ⟨4⟩)]

/-- The handles at the start of a run. -/
def freshIo : Io (MemoryStore TimeFrontier) Record TimeFrontier ValueSet :=
  ⟨.new [], .inferred ValueSet.table, []⟩

theorem window_delays_block_writer_reobserved :
    (recordAll ConfirmationWindow.record (.new 2 (some ⟨5, {"z"}⟩)) freshIo reobserved).2.2
        = (recordAll BlockWriter.record (.new (some ⟨5, {"z"}⟩)) freshIo reobserved).2.2 ∧
      writes (recordAll ConfirmationWindow.record (.new 2 (some ⟨5, {"z"}⟩)) freshIo
          reobserved).2.1.effects
        <+: writes
          ((recordAll BlockWriter.record (.new (some ⟨5, {"z"}⟩)) freshIo reobserved).1.finish
          (recordAll BlockWriter.record
            (.new (some ⟨5, {"z"}⟩)) freshIo reobserved).2.1).2.effects := by
  have hR : Encodes (fun _ : ValueSet => True) ValueSet.Records := ValueSet.encodes _
  have hsorted : reobserved.Pairwise fun x y => Position.sortKey x.1 ≤ Position.sortKey y.1 := by
    simp [reobserved, Position.sortKey]
  have hhalt : Position.reobservation TimeFrontier ≠ .halt := by decide
  have hfit : ∀ x ∈ reobserved, Position.sortKey x.1 + 2 ≤ u64Max := by
    simp [reobserved, Position.sortKey, u64Max]
  have hstore : freshIo.store.fails = [] := rfl
  have hrecord : ValueSet.Records freshIo.record := .inl rfl
  have h := window_delays_block_writer MemoryStore.reliable hR (by decide : 0 < 2)
    (some ⟨5, {"z"}⟩) hsorted (fun hP => absurd hP hhalt) hfit (fun _ _ => trivial) hstore hstore
    hrecord rfl rfl
  exact ⟨h.1, h.2.2.1⟩

end ArtemisLight
