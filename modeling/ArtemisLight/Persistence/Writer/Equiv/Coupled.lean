import ArtemisLight.Persistence.Scripted
import ArtemisLight.Persistence.Writer.Equiv.Window
import ArtemisLight.Persistence.Writer.Pipeline

/-!
## Two subscriptions that differ in the store

One store never fails, the other one may fail any write.  Up to the first failed write the two
subscriptions do the same.  From then on a writer of the second one is that of the first or has
halted, and a writer that has halted delivers everything.

* `failures_withhold_nothing`: the consumer of the second subscription is given all that the one of
  the first is, in the same order.

Both sides of one writer's operation are related by `Stepped`, which `flush_both` begins and
`record_stepped`, `finish_stepped`, `recordSeeded_stepped` and `retract_stepped` pass on.  Two sides
are `Twin` until a write fails and `Split` afterwards: `Twin.step` goes from one to the other,
`Split.step` and `Split.step_left` stay.  `Coupled` is this of both writers; `settledRecord` and
`windowRecord` carry it through an item (`Recorder`), `settle` through the end of the backfill, and
`coupled_persistAndEmit` through a subscription.
-/

namespace ArtemisLight

variable {σ ρ P E : Type}

/-- A write failed. -/
def Effect.WriteFailed : Effect P E → Prop
  | .halted _ (.write _) => True
  | _ => False

/-- What a writer does on the way: a consumer does not see it, and it is no failed write. -/
def Effect.Inner (x : Effect P E) : Prop := x.yielded? = none ∧ ¬ x.WriteFailed

/-- The record no longer changes. -/
def Frozen (E : Type) [RecordOps ρ E] (record : ρ) : Prop :=
  ∀ e : E, (RecordOps.encode record e).2 = record

theorem yields_of_inner {l : List (Effect P E)} (h : ∀ x ∈ l, x.Inner) : yields l = [] := by
  unfold yields
  rw [List.filterMap_eq_nil_iff]
  exact fun x hx => (h x hx).1

theorem Frozen.of_encode [RecordOps ρ E] {record record' : ρ} {event : E} {row : Row}
    (h : RecordOps.encode record event = (.ok row, record')) : Frozen E record' :=
  RecordOps.encode_frozen h

/-! ### One step -/

/-- What a step leaves of a writer whose handles differ in the store: either it is the same on both
sides, or a write has failed on the second one, whose writer has halted. -/
structure Stepped [RecordOps ρ E] {T : Type} (W : σ → Prop) (core : T → GapFreeWriter)
    (io io' : Io σ ρ P E) (r r' : T × Io σ ρ P E) : Prop where
  store : W r.2.store
  record : r'.2.record = r.2.record
  keeps : Frozen E io.record → r.2.record = io.record
  frozen : (core r.1).schema.isSome → Frozen E r.2.record
  cases : ∃ xs, (∀ x ∈ xs, x.Inner) ∧
    ((r'.1 = r.1 ∧ r.2.effects = io.effects ++ xs ∧ r'.2.effects = io'.effects ++ xs) ∨
      ∃ ys writer e, (∀ y ∈ ys, y.Inner) ∧ r.2.effects = io.effects ++ xs ++ ys ∧
        r'.2.effects = io'.effects ++ xs ++ [.halted writer (.write e)] ∧
        (core r'.1).healthy = false ∧ Frozen E r.2.record)

section Stepped

variable [RecordOps ρ E] {W : σ → Prop} {T : Type} {core : T → GapFreeWriter}
  {io io' : Io σ ρ P E} {r r' : T × Io σ ρ P E}

/-- A consumer of the reliable side sees nothing of the step. -/
theorem Stepped.inner (h : Stepped W core io io' r r') :
    ∃ zs, (∀ z ∈ zs, z.Inner) ∧ r.2.effects = io.effects ++ zs := by
  obtain ⟨xs, hxs, ⟨-, heffects, -⟩ | ⟨ys, writer, e, hys, heffects, -⟩⟩ := h.cases
  · exact ⟨xs, hxs, heffects⟩
  · exact ⟨xs ++ ys, List.forall_mem_append.mpr ⟨hxs, hys⟩, by rw [heffects, List.append_assoc]⟩

/-- A step that does not touch the store. -/
theorem Stepped.of_same {t : T} {record : ρ} {xs : List (Effect P E)} (hs : W io.store)
    (hkeeps : Frozen E io.record → record = io.record)
    (hfrozen : (core t).schema.isSome → Frozen E record) (hxs : ∀ x ∈ xs, x.Inner) :
    Stepped W core io io' (t, ⟨io.store, record, io.effects ++ xs⟩)
      (t, ⟨io'.store, record, io'.effects ++ xs⟩) where
  store := hs
  record := rfl
  keeps := hkeeps
  frozen := hfrozen
  cases := ⟨xs, hxs, .inl ⟨rfl, rfl, rfl⟩⟩

/-- Nothing happens. -/
theorem Stepped.refl {t : T} (hs : W io.store) (hrec : io'.record = io.record)
    (hfrozen : (core t).schema.isSome → Frozen E io.record) :
      Stepped W core io io' (t, io) (t, io') where
  store := hs
  record := hrec
  keeps _ := rfl
  frozen := hfrozen
  cases := ⟨[], fun _ hx => absurd hx List.not_mem_nil,
    .inl ⟨rfl, (List.append_nil _).symm, (List.append_nil _).symm⟩⟩

/-- A write that fails on the second side only. -/
theorem Stepped.of_failed {t t' : T} {store store' : σ} {record : ρ} {ys : List (Effect P E)}
    {writer : Writer} {e : Error} (hs : W store) (hkeeps : Frozen E io.record → record = io.record)
    (hfrozen : Frozen E record) (hys : ∀ y ∈ ys, y.Inner) (hhealthy : (core t').healthy = false) :
    Stepped W core io io' (t, ⟨store, record, io.effects ++ ys⟩)
      (t', ⟨store', record, io'.effects ++ [.halted writer (.write e)]⟩) := by
  refine ⟨hs, rfl, hkeeps, fun _ => hfrozen, [], fun _ hx => absurd hx List.not_mem_nil,
    .inr ⟨ys, writer, e, hys, ?_, ?_, hhealthy, hfrozen⟩⟩
  · rw [List.append_nil]
  · rw [List.append_nil]

/-- A step after one that was the same on both sides. -/
theorem Stepped.after {store store' : σ} {record : ρ} {xs : List (Effect P E)}
    (hxs : ∀ x ∈ xs, x.Inner) (hkeeps : Frozen E io.record → record = io.record)
    (h : Stepped W core ⟨store, record, io.effects ++ xs⟩
      ⟨store', record, io'.effects ++ xs⟩ r r') :
    Stepped W core io io' r r' := by
  refine ⟨h.store, h.record, fun hf => ?_, h.frozen, ?_⟩
  · have hrecord := hkeeps hf
    rw [← hrecord] at hf
    exact (h.keeps hf).trans hrecord
  · obtain ⟨xs', hxs',
      ⟨hsame, heffects, heffects'⟩ | ⟨ys, writer, e, hys, heffects, heffects', hrest⟩⟩ :=
      h.cases
    · refine ⟨xs ++ xs', List.forall_mem_append.mpr ⟨hxs, hxs'⟩, .inl ⟨hsame, ?_, ?_⟩⟩
      · rw [heffects, List.append_assoc]
      · rw [heffects', List.append_assoc]
    · refine ⟨xs ++ xs', List.forall_mem_append.mpr ⟨hxs, hxs'⟩,
        .inr ⟨ys, writer, e, hys, ?_, ?_, hrest⟩⟩
      · rw [heffects, List.append_assoc io.effects]
      · rw [heffects', List.append_assoc io'.effects]

end Stepped

/-! ### The handles -/

/-- The effects of the second side agree with those of the first up to its first failed write. -/
def Diverged (effects effects' : List (Effect P E)) : Prop :=
  ∃ common writer e rest, effects' = common ++ .halted writer (.write e) :: rest ∧
    (∀ x ∈ common, ¬ x.WriteFailed) ∧ common <+: effects

/-- No write has failed, and the same has happened on both sides. -/
structure Twin (io io' : Io σ ρ P E) : Prop where
  record : io'.record = io.record
  effects : io'.effects = io.effects
  clean : ∀ x ∈ io.effects, ¬ x.WriteFailed

/-- A write has failed on the second side, which has delivered all the first one has. -/
structure Split [RecordOps ρ E] (io io' : Io σ ρ P E) : Prop where
  record : io'.record = io.record
  frozen : Frozen E io.record
  delivered : (yields io.effects).Sublist (yields io'.effects)
  diverged : Diverged io.effects io'.effects

/-- The writer of the second side is that of the first one or has halted. -/
def Agrees {T : Type} (core : T → GapFreeWriter) (t t' : T) : Prop :=
  t' = t ∨ (core t').healthy = false

theorem Diverged.append {effects effects' : List (Effect P E)} (h : Diverged effects effects')
    (xs xs' : List (Effect P E)) : Diverged (effects ++ xs) (effects' ++ xs') := by
  obtain ⟨common, writer, e, rest, heffects, hclean, hcommon⟩ := h
  refine ⟨common, writer, e, rest ++ xs', ?_, hclean, hcommon.trans (List.prefix_append _ _)⟩
  rw [heffects, List.append_assoc, List.cons_append]

theorem Twin.deliver {io io' : Io σ ρ P E} (h : Twin io io') (position : P) (event : E) (d : Bool) :
    Twin (io.deliver position event d) (io'.deliver position event d) := by
  refine ⟨h.record, ?_, ?_⟩
  · show io'.effects ++ _ = io.effects ++ _
    rw [h.effects]
  · refine List.forall_mem_append.mpr ⟨h.clean, fun x hx => ?_⟩
    rw [List.mem_singleton.mp hx]
    cases d <;> exact id

section Handles

variable [RecordOps ρ E] {W : σ → Prop} {io io' : Io σ ρ P E} {T : Type} {core : T → GapFreeWriter}
  {r r' : T × Io σ ρ P E}

/-- A writer's step while no write has failed. -/
theorem Twin.step (h : Twin io io') (hstep : Stepped W core io io' r r') :
    (r'.1 = r.1 ∧ Twin r.2 r'.2) ∨ ((core r'.1).healthy = false ∧ Split r.2 r'.2) := by
  obtain ⟨xs, hxs, ⟨hsame, heffects, heffects'⟩ |
    ⟨ys, writer, e, hys, heffects, heffects', hhealthy, hfrozen⟩⟩ := hstep.cases
  · refine .inl ⟨hsame, hstep.record, ?_, ?_⟩
    · rw [heffects, heffects', h.effects]
    · rw [heffects]
      exact List.forall_mem_append.mpr ⟨h.clean, fun x hx => (hxs x hx).2⟩
  · refine .inr ⟨hhealthy, hstep.record, hfrozen, ?_, io.effects ++ xs, writer, e, [], ?_, ?_, ?_⟩
    · rw [heffects, heffects', h.effects]
      simp only [yields_append, yields_of_inner hxs, yields_of_inner hys, List.append_nil]
      exact List.sublist_append_left _ _
    · rw [heffects', h.effects]
    · exact List.forall_mem_append.mpr ⟨h.clean, fun x hx => (hxs x hx).2⟩
    · rw [heffects]
      exact List.prefix_append _ _

/-- A step of a writer that is still the same on both sides, after a failed write. -/
theorem Split.step (h : Split io io') (hstep : Stepped W core io io' r r') :
    Agrees core r.1 r'.1 ∧ Split r.2 r'.2 := by
  have hfrozen : Frozen E r.2.record := by
    rw [hstep.keeps h.frozen]
    exact h.frozen
  obtain ⟨xs, hxs, ⟨hsame, heffects, heffects'⟩ |
    ⟨ys, writer, e, hys, heffects, heffects', hhealthy, -⟩⟩ := hstep.cases
  · refine ⟨.inl hsame, hstep.record, hfrozen, ?_, ?_⟩
    · rw [heffects, heffects']
      simp only [yields_append, yields_of_inner hxs, List.append_nil]
      exact h.delivered
    · rw [heffects, heffects']
      exact h.diverged.append _ _
  · refine ⟨.inr hhealthy, hstep.record, hfrozen, ?_, ?_⟩
    · rw [heffects, heffects']
      simp only [yields_append, yields_of_inner hxs, yields_of_inner hys, List.append_nil]
      exact h.delivered.trans (List.sublist_append_left _ _)
    · rw [heffects, heffects', List.append_assoc, List.append_assoc]
      exact h.diverged.append _ _

/-- A step of a writer that has halted on the second side. -/
theorem Split.step_left (h : Split io io') (hstep : Stepped W core io io r r) : Split r.2 io' := by
  obtain ⟨xs, hxs, heffects⟩ := hstep.inner
  refine ⟨?_, ?_, ?_, ?_⟩
  · rw [hstep.keeps h.frozen]
    exact h.record
  · rw [hstep.keeps h.frozen]
    exact h.frozen
  · rw [heffects, yields_append, yields_of_inner hxs, List.append_nil]
    exact h.delivered
  · rw [heffects, ← List.append_nil io'.effects]
    exact h.diverged.append _ _

/-- Either side goes on, and neither consumer sees it. -/
theorem Split.append (h : Split io io') (xs xs' : List (Effect P E)) (hxs : yields xs = [])
    (hxs' : yields xs' = []) :
    Split { io with effects := io.effects ++ xs } { io' with effects := io'.effects ++ xs' } := by
  refine ⟨h.record, h.frozen, ?_, h.diverged.append xs xs'⟩
  show (yields (io.effects ++ xs)).Sublist (yields (io'.effects ++ xs'))
  rw [yields_append, yields_append, hxs, hxs', List.append_nil, List.append_nil]
  exact h.delivered

/-- The consumer of the second side is given at least what that of the first one is. -/
theorem Split.deliver (h : Split io io') (position : P) (event : E)
    {d d' : Bool} (hd : d' = d ∨ d' = true) :
    Split (io.deliver position event d) (io'.deliver position event d') := by
  refine ⟨h.record, h.frozen, ?_, h.diverged.append _ _⟩
  show (yields (io.effects ++ _)).Sublist (yields (io'.effects ++ _))
  rw [yields_append, yields_append]
  apply h.delivered.append
  rcases hd with rfl | rfl
  · exact List.Sublist.refl _
  · cases d
    · exact List.nil_sublist _
    · exact List.Sublist.refl _

end Handles

namespace GapFreeWriter

variable {W : σ → Prop} {io io' : Io σ ρ P E} (c : GapFreeWriter)

/-- Encoding does not touch the store. -/
theorem encode_both [RecordOps ρ E] (hrec : io'.record = io.record) (event : E)
    (hfrozen : c.schema.isSome → Frozen E io.record) :
    ∃ row c' record xs, (∀ x ∈ xs, x.Inner) ∧
      c.encode io event = (row, c', ⟨io.store, record, io.effects ++ xs⟩) ∧
      c.encode io' event = (row, c', ⟨io'.store, record, io'.effects ++ xs⟩) ∧
      (c'.schema.isSome → Frozen E record) ∧ (Frozen E io.record → record = io.record) := by
  have hkeeps : Frozen E io.record → (RecordOps.encode io.record event).2 = io.record :=
    fun h => h event
  unfold encode
  rw [hrec]
  rcases he : RecordOps.encode io.record event with ⟨e | row, record⟩
  · rw [he] at hkeeps
    refine ⟨none, _, record, [.halted c.writer (.encode e)], ?_, rfl, rfl, fun h => ?_, hkeeps⟩
    · intro x hx
      rw [List.mem_singleton] at hx
      rw [hx]
      exact ⟨rfl, id⟩
    · have hrecord : record = io.record := hkeeps (hfrozen h)
      rw [hrecord]
      exact hfrozen h
  · rw [he] at hkeeps
    refine ⟨some row, { c with
        schema := if c.schema.isNone then RecordOps.schema (E := E) record else c.schema }, record,
          [],
      fun _ hx => absurd hx List.not_mem_nil, ?_, ?_, fun _ => Frozen.of_encode he, hkeeps⟩
    · simp only [List.append_nil]
    · simp only [List.append_nil]

variable [Store σ P]

/-- A flush that the first store takes, the second store takes too or fails. -/
theorem flush_both (io io' : Io σ ρ P E) (hW : Reliable P W) (hs : W io.store) (position : P)
    (rows : List Row) :
    ∃ store xs, (∀ x ∈ xs, x.Inner) ∧ W store ∧
      c.flush io position rows = (true, c, ⟨store, io.record, io.effects ++ xs⟩) ∧
      ((∃ store', c.flush io' position rows
          = (true, c, ⟨store', io'.record, io'.effects ++ xs⟩)) ∨
        c.schema.isSome ∧ ∃ e store', c.flush io' position rows = (false,
          { c with healthy := false },
          ⟨store', io'.record, io'.effects ++ [.halted c.writer (.write e)]⟩)) := by
  unfold flush
  rcases c.schema with _ | schema
  · refine ⟨io.store, [], fun _ hx => absurd hx List.not_mem_nil, hs, ?_, .inl ⟨io'.store, ?_⟩⟩
    · simp only [List.append_nil]
    · simp only [List.append_nil]
  · obtain ⟨store, hok, hs'⟩ := hW io.store hs schema position rows
    refine ⟨store, [.wrote c.writer position rows], fun x hx => ?_, hs', ?_, ?_⟩
    · rw [List.mem_singleton] at hx
      rw [hx]
      exact ⟨rfl, id⟩
    · simp only [hok]
      rfl
    · rcases hw : Store.write io'.store schema position rows with ⟨e | u, store'⟩
      · refine .inr ⟨rfl, e, store', ?_⟩
        simp only [hw]
        rfl
      · refine .inl ⟨store', ?_⟩
        simp only [hw]
        rfl

end GapFreeWriter

variable [Position P] [Store σ P] [RecordOps ρ E] {W : σ → Prop} {io io' : Io σ ρ P E}

/-! ### The block writer -/

namespace BlockWriter

theorem record_stepped (hW : Reliable P W) (hs : W io.store) (hrec : io'.record = io.record)
    (w : BlockWriter P) (hfrozen : w.core.schema.isSome → Frozen E io.record) (position : P)
    (event : E) :
    (w.record io' position event).2.2 = (w.record io position event).2.2 ∧
      Stepped W BlockWriter.core io io'
        ((w.record io position event).1, (w.record io position event).2.1)
        ((w.record io' position event).1, (w.record io' position event).2.1) := by
  have haccepted : ∀ row, ∀ x ∈ [(Effect.accepted .settled position event row : Effect P E)],
      x.Inner := by
    intro row x hx
    rw [List.mem_singleton.mp hx]
    exact ⟨rfl, id⟩
  unfold record
  split
  · exact ⟨rfl, .refl hs hrec hfrozen⟩
  split
  · exact ⟨rfl, .refl hs hrec hfrozen⟩
  obtain ⟨row, core, record, xs, hxs, henc, henc', hfrozen', hkeeps⟩ :=
    w.core.encode_both hrec event hfrozen
  rw [henc, henc']
  rcases row with _ | row
  · exact ⟨rfl, .of_same hs hkeeps hfrozen' hxs⟩
  rcases hcur : w.current with _ | cur
  · exact ⟨rfl, .after hxs hkeeps (.of_same hs (fun _ => rfl) hfrozen' (haccepted row))⟩
  dsimp only
  split
  · refine ⟨rfl, .after hxs hkeeps (.of_same hs (fun _ => rfl) hfrozen' ?_)⟩
    intro x hx
    rw [List.mem_singleton.mp hx]
    exact ⟨rfl, id⟩
  -- beyond the open group the write may fail on one side, which goes on unhealthy
  split
  · obtain ⟨store, ys, hys, hs', hflush, ⟨store', hflush'⟩ | ⟨hschema, e, store', hflush'⟩⟩ :=
      core.flush_both ⟨io.store, record, io.effects ++ xs⟩
        ⟨io'.store, record, io'.effects ++ xs⟩ hW hs cur w.buffer
    · rw [hflush, hflush']
      exact ⟨rfl, .after hxs hkeeps (.after hys (fun _ => rfl)
        (.of_same hs' (fun _ => rfl) hfrozen' (haccepted row)))⟩
    · rw [hflush, hflush']
      refine ⟨rfl, .after hxs hkeeps (?_ : Stepped W BlockWriter.core
        ⟨io.store, record, io.effects ++ xs⟩ ⟨io'.store, record, io'.effects ++ xs⟩ _ _)⟩
      simp only [push, Io.emit, List.append_assoc _ ys]
      exact .of_failed hs' (fun _ => rfl) (hfrozen' hschema)
        (List.forall_mem_append.mpr ⟨hys, haccepted row⟩) rfl
  · exact ⟨rfl, .after hxs hkeeps (.of_same hs (fun _ => rfl) hfrozen' (haccepted row))⟩

theorem finish_stepped (hW : Reliable P W) (hs : W io.store) (hrec : io'.record = io.record)
    (w : BlockWriter P) (hfrozen : w.core.schema.isSome → Frozen E io.record) :
    Stepped W BlockWriter.core io io' (w.finish io) (w.finish io') := by
  unfold finish
  split
  · split
    · exact .refl hs hrec hfrozen
    · rename_i cur hcur
      obtain ⟨store, xs, hxs, hs', hflush, ⟨store', hflush'⟩ | ⟨hschema, e, store', hflush'⟩⟩ :=
        w.core.flush_both io io' hW hs cur w.buffer
      · rw [hflush, hflush', hrec]
        exact ⟨hs', rfl, fun _ => rfl, hfrozen, xs, hxs, .inl ⟨rfl, rfl, rfl⟩⟩
      · rw [hflush, hflush', hrec]
        exact .of_failed hs' (fun _ => rfl) (hfrozen hschema) hxs rfl
  · exact .refl hs hrec hfrozen

end BlockWriter

/-! ### The confirmation window -/

namespace ConfirmationWindow

omit [Position P] [Store σ P] [RecordOps ρ E] in
theorem inner_of_mem_singleton {x y : Effect P E} (hx : x.Inner) (hy : y ∈ [x]) : y.Inner := by
  rw [List.mem_singleton.mp hy]
  exact hx

omit [Store σ P] [RecordOps ρ E] in
/-- Folding a row in touches neither the store nor the record. -/
theorem fold_both (w : ConfirmationWindow P) (position : P) (event : E) (row : Row) :
    ∃ w' xs d, w'.core = w.core ∧ (∀ x ∈ xs, x.Inner) ∧ ∀ io : Io σ ρ P E,
      w.fold io position event row = (w', ⟨io.store, io.record, io.effects ++ xs⟩, d) := by
  unfold fold
  dsimp only
  rcases w.pending[Position.sortKey position]? with _ | pending
  · refine ⟨_, [.accepted .window position event row], _, ?_,
      fun x hx => inner_of_mem_singleton ⟨rfl, id⟩ hx, fun io => rfl⟩
    rfl
  · dsimp only
    by_cases hrebuild : Position.reobservation P = .halt ∧ pending.seeded = true
    · simp only [hrebuild, and_self, decide_true, if_true, Io.emit, List.append_assoc,
        List.singleton_append]
      refine ⟨_, [.rebuilt (Position.sortKey position), .accepted .window position event row], _,
        ?_,
        fun x hx => ?_, fun io => rfl⟩
      · rfl
      · rcases List.mem_cons.mp hx with rfl | hx
        · exact ⟨rfl, id⟩
        · exact inner_of_mem_singleton ⟨rfl, id⟩ hx
    · simp only [hrebuild, decide_false, Bool.false_eq_true, if_false, Io.emit]
      refine ⟨_, [.accepted .window position event row], _, ?_,
        fun x hx => inner_of_mem_singleton ⟨rfl, id⟩ hx, fun io => rfl⟩
      rfl

omit [Store σ P] [RecordOps ρ E] in
/-- Accepting a row touches neither the store nor the record. -/
theorem accept_both (w : ConfirmationWindow P) (position : P) (event : E) (row : Row) :
    ∃ w' xs d, w'.core = w.core ∧ (∀ x ∈ xs, x.Inner) ∧ ∀ io : Io σ ρ P E,
      w.accept io position event row = (w', ⟨io.store, io.record, io.effects ++ xs⟩, d) := by
  unfold accept
  dsimp only
  by_cases hreorg : Position.reobservation P = .halt ∧
      (w.head.any fun h => decide (Position.sortKey position < h)) = true
  · obtain ⟨w', xs, d, hcore, hxs, hfold⟩ :=
      fold_both (σ := σ) (ρ := ρ) { w.rewind (Position.sortKey position) with
        head := some (Position.sortKey position) } position event row
    simp only [hreorg, and_self, decide_true, if_true, hfold, Io.emit, List.append_assoc,
      List.singleton_append]
    refine ⟨_, .rewound (Position.sortKey position) :: xs, d, ?_, fun x hx => ?_, fun io => rfl⟩
    · exact hcore
    · rcases List.mem_cons.mp hx with rfl | hx
      · exact ⟨rfl, id⟩
      · exact hxs x hx
  · obtain ⟨w', xs, d, hcore, hxs, hfold⟩ := fold_both (σ := σ) (ρ := ρ) w position event row
    simp only [hreorg, decide_false, Bool.false_eq_true, if_false, hfold]
    refine ⟨_, xs, d, ?_, hxs, fun io => rfl⟩
    exact hcore

omit [Store σ P] [RecordOps ρ E] in
theorem acceptSeeded_both (w : ConfirmationWindow P) (position : P) (event : E) (row : Row) :
    ∃ w', w'.core = w.core ∧ ∀ io : Io σ ρ P E, w.acceptSeeded io position event row
      = (w', ⟨io.store, io.record, io.effects ++ [.accepted .window position event row]⟩) := by
  refine ⟨_, ?_, fun io => rfl⟩
  rfl

/-- A flush loop that the first store takes throughout, the second store takes too or fails. -/
theorem flushLoop_stepped (hW : Reliable P W) (bs : List Nat)
    (w : ConfirmationWindow P) (hs : W io.store) (hrec : io'.record = io.record)
    (hfrozen : w.core.schema.isSome → Frozen E io.record) :
    Stepped W ConfirmationWindow.core io io' (w.flushLoop io bs) (w.flushLoop io' bs) := by
  induction bs generalizing w io io' with
  | nil => exact .refl hs hrec hfrozen
  | cons b bs ih =>
    unfold flushLoop
    rcases w.pending[b]? with _ | pending
    · exact ih w hs hrec hfrozen
    dsimp only
    obtain ⟨store, xs, hxs, hs', hflush, ⟨store', hflush'⟩ | ⟨hschema, e, store', hflush'⟩⟩ :=
      w.core.flush_both io io' hW hs pending.position pending.rows
    · rw [hflush, hflush', hrec]
      exact .after hxs (fun _ => rfl) (ih _ hs' rfl hfrozen)
    · rw [hflush, hflush', hrec]
      -- the first side goes on with the rest of the loop
      have hrest : Stepped W ConfirmationWindow.core ⟨store, io.record, io.effects ++ xs⟩
          ⟨store, io.record, io.effects ++ xs⟩ _ _ := ih (w.finalize b pending) hs' rfl hfrozen
      have hrecord := hrest.keeps (hfrozen hschema)
      obtain ⟨zs, hzs, heffects⟩ := hrest.inner
      have hstore := hrest.store
      dsimp only at hrecord heffects ⊢
      generalize (w.finalize b pending).flushLoop ⟨store, io.record, io.effects ++ xs⟩ bs = r
        at hrecord heffects hstore
      obtain ⟨w', store'', record, effects⟩ := r
      obtain rfl : record = io.record := hrecord
      obtain rfl : effects = io.effects ++ (xs ++ zs) := heffects.trans (List.append_assoc _ _ _)
      exact .of_failed hstore (fun _ => rfl) (hfrozen hschema)
        (List.forall_mem_append.mpr ⟨hxs, hzs⟩) rfl

theorem flushMatured_stepped (hW : Reliable P W) (w : ConfirmationWindow P) (hs : W io.store)
    (hrec : io'.record = io.record) (hfrozen : w.core.schema.isSome → Frozen E io.record) :
    Stepped W ConfirmationWindow.core io io' (w.flushMatured io) (w.flushMatured io') := by
  unfold flushMatured
  rcases w.head with _ | head
  · exact .refl hs hrec hfrozen
  · exact flushLoop_stepped hW _ w hs hrec hfrozen

omit [Position P] [Store σ P] in
/-- A halt is logged, and nothing else happens. -/
theorem failWith_stepped (hs : W io.store) (hrec : io'.record = io.record)
    (w : ConfirmationWindow P)
    (hfrozen : w.core.schema.isSome → Frozen E io.record) {reason : HaltReason P}
    (hreason : ∀ e, reason ≠ .write e) :
    Stepped W ConfirmationWindow.core io io' (w.failWith io reason) (w.failWith io' reason) := by
  have hinner : (Effect.halted w.core.writer reason : Effect P E).Inner := by
    refine ⟨rfl, fun h => ?_⟩
    cases reason with
    | write e => exact hreason e rfl
    | _ => exact h
  unfold failWith GapFreeWriter.fail Io.emit
  rw [hrec]
  exact .of_same hs (fun _ => rfl) hfrozen fun x hx => inner_of_mem_singleton hinner hx

theorem record_stepped (hW : Reliable P W) (hs : W io.store) (hrec : io'.record = io.record)
    (w : ConfirmationWindow P) (hfrozen : w.core.schema.isSome → Frozen E io.record) (position : P)
    (event : E) :
    (w.record io' position event).2.2 = (w.record io position event).2.2 ∧
      Stepped W ConfirmationWindow.core io io'
        ((w.record io position event).1, (w.record io position event).2.1)
        ((w.record io' position event).1, (w.record io' position event).2.1) := by
  unfold record
  dsimp only
  split
  · exact ⟨rfl, .refl hs hrec hfrozen⟩
  split
  · exact ⟨rfl, .refl hs hrec hfrozen⟩
  split
  · exact ⟨rfl, failWith_stepped hs hrec w hfrozen (fun e => by simp)⟩
  obtain ⟨row, core, record, xs, hxs, henc, henc', hfrozen', hkeeps⟩ :=
    w.core.encode_both hrec event hfrozen
  rw [henc, henc']
  rcases row with _ | row
  · exact ⟨rfl, .of_same hs hkeeps hfrozen' hxs⟩
  · obtain ⟨w', ys, d, hcore, hys, haccept⟩ :=
      accept_both (σ := σ) (ρ := ρ) { w with core } position event row
    dsimp only
    rw [haccept, haccept]
    have hfrozen'' : w'.core.schema.isSome → Frozen E record := by
      rw [hcore]
      exact hfrozen'
    exact ⟨rfl, .after hxs hkeeps (.after hys (fun _ => rfl)
      (flushMatured_stepped hW w' hs rfl hfrozen''))⟩

theorem recordSeeded_stepped (hW : Reliable P W) (hs : W io.store) (hrec : io'.record = io.record)
    (w : ConfirmationWindow P) (hfrozen : w.core.schema.isSome → Frozen E io.record) (position : P)
    (event : E) :
    (w.recordSeeded io' position event).2.2 = (w.recordSeeded io position event).2.2 ∧
      Stepped W ConfirmationWindow.core io io'
        ((w.recordSeeded io position event).1, (w.recordSeeded io position event).2.1)
        ((w.recordSeeded io' position event).1, (w.recordSeeded io' position event).2.1) := by
  unfold recordSeeded
  dsimp only
  split
  · exact ⟨rfl, .refl hs hrec hfrozen⟩
  split
  · exact ⟨rfl, .refl hs hrec hfrozen⟩
  split
  · exact ⟨rfl, failWith_stepped hs hrec w hfrozen (fun e => by simp)⟩
  obtain ⟨row, core, record, xs, hxs, henc, henc', hfrozen', hkeeps⟩ :=
    w.core.encode_both hrec event hfrozen
  rw [henc, henc']
  rcases row with _ | row
  · exact ⟨rfl, .of_same hs hkeeps hfrozen' hxs⟩
  · obtain ⟨w', hcore, haccept⟩ :=
      acceptSeeded_both (σ := σ) (ρ := ρ) { w with core } position event row
    dsimp only
    rw [haccept, haccept]
    have hfrozen'' : w'.core.schema.isSome → Frozen E record := by
      rw [hcore]
      exact hfrozen'
    exact ⟨rfl, .after hxs hkeeps (.after (fun x hx => inner_of_mem_singleton ⟨rfl, id⟩ hx)
      (fun _ => rfl) (flushMatured_stepped hW w' hs rfl hfrozen''))⟩

omit [Store σ P] in
theorem retract_stepped (hs : W io.store) (hrec : io'.record = io.record) (w : ConfirmationWindow P)
    (hfrozen : w.core.schema.isSome → Frozen E io.record) (position : P) :
    Stepped W ConfirmationWindow.core io io' (w.retract io position) (w.retract io' position) := by
  unfold retract
  dsimp only
  split
  · exact .refl hs hrec hfrozen
  split
  · exact .refl hs hrec hfrozen
  split
  · exact failWith_stepped hs hrec w hfrozen (fun e => by simp)
  · unfold Io.emit
    rw [hrec]
    exact .of_same hs (fun _ => rfl) hfrozen fun x hx => inner_of_mem_singleton ⟨rfl, id⟩ hx

end ConfirmationWindow

/-! ### Recording and delivering -/

/-- One item recorded by a writer: the store matters only to the writes, and a writer that has
halted delivers everything. -/
structure Recorder (W : σ → Prop) {T : Type} (core : T → GapFreeWriter)
    (record : T → Io σ ρ P E → T × Io σ ρ P E × Bool) : Prop where
  stepped : ∀ {io io' : Io σ ρ P E}, W io.store → io'.record = io.record → ∀ t,
    ((core t).schema.isSome → Frozen E io.record) →
      (record t io').2.2 = (record t io).2.2 ∧ Stepped W core io io'
        ((record t io).1, (record t io).2.1) ((record t io').1, (record t io').2.1)
  halted : ∀ t (io : Io σ ρ P E), (core t).healthy = false → record t io = (t, io, true)

namespace Recorder

theorem settled (hW : Reliable P W) (position : P) (event : E) :
    Recorder (ρ := ρ) W BlockWriter.core fun w io => w.record io position event where
  stepped hs hrec w hfrozen := w.record_stepped hW hs hrec hfrozen position event
  halted w io h := by simp only [BlockWriter.record, h, Bool.not_false, if_true]

theorem seeded (hW : Reliable P W) (position : P) (event : E) :
    Recorder (ρ := ρ) W ConfirmationWindow.core fun w io => w.recordSeeded io position event where
  stepped hs hrec w hfrozen := w.recordSeeded_stepped hW hs hrec hfrozen position event
  halted w io h := by simp only [ConfirmationWindow.recordSeeded, h, Bool.not_false, if_true]

theorem live (hW : Reliable P W) (position : P) (event : E) :
    Recorder (ρ := ρ) W ConfirmationWindow.core fun w io => w.record io position event where
  stepped hs hrec w hfrozen := w.record_stepped hW hs hrec hfrozen position event
  halted w io h := by simp only [ConfirmationWindow.record, h, Bool.not_false, if_true]

section

omit [Position P] [Store σ P]

variable {T : Type} {core : T → GapFreeWriter} {record : T → Io σ ρ P E → T × Io σ ρ P E × Bool}
  {t t' : T}

theorem twin (hr : Recorder W core record) (hs : W io.store)
    (hfrozen : (core t).schema.isSome → Frozen E io.record) (h : Twin io io') (position : P)
    (event : E) :
    ((record t io').1 = (record t io).1 ∧
      Twin ((record t io).2.1.deliver position event (record t io).2.2)
        ((record t io').2.1.deliver position event (record t io').2.2)) ∨
    ((core (record t io').1).healthy = false ∧
      Split ((record t io).2.1.deliver position event (record t io).2.2)
        ((record t io').2.1.deliver position event (record t io').2.2)) := by
  obtain ⟨hd, hstep⟩ := hr.stepped hs h.record t hfrozen
  rw [hd]
  rcases h.step hstep with ⟨hsame, htwin⟩ | ⟨hhealthy, hsplit⟩
  · exact .inl ⟨hsame, htwin.deliver position event _⟩
  · exact .inr ⟨hhealthy, hsplit.deliver position event (.inl rfl)⟩

theorem split (hr : Recorder W core record) (hs : W io.store)
    (hfrozen : (core t).schema.isSome → Frozen E io.record) (h : Split io io')
    (hagrees : Agrees core t t') (position : P) (event : E) :
    Agrees core (record t io).1 (record t' io').1 ∧
      Split ((record t io).2.1.deliver position event (record t io).2.2)
        ((record t' io').2.1.deliver position event (record t' io').2.2) := by
  rcases hagrees with rfl | hhalted
  · obtain ⟨hd, hstep⟩ := hr.stepped hs h.record t' hfrozen
    obtain ⟨hagrees, hsplit⟩ := h.step hstep
    exact ⟨hagrees, hsplit.deliver position event (.inl hd)⟩
  · rw [hr.halted t' io' hhalted]
    exact ⟨.inr hhalted,
      (h.step_left (hr.stepped hs rfl t hfrozen).2).deliver position event (.inr rfl)⟩

end

end Recorder

/-! ### The pipeline -/

/-- Two pipelines that differ in the store. -/
structure Coupled (W : σ → Prop) (s s' : Pipeline σ ρ P E) : Prop where
  store : W s.io.store
  settledFrozen : s.settled.core.schema.isSome → Frozen E s.io.record
  windowFrozen : s.window.core.schema.isSome → Frozen E s.io.record
  cases : (s'.settled = s.settled ∧ s'.window = s.window ∧ Twin s.io s'.io) ∨
    (Agrees BlockWriter.core s.settled s'.settled ∧
      Agrees ConfirmationWindow.core s.window s'.window ∧ Split s.io s'.io)

namespace Coupled

variable {s s' : Pipeline σ ρ P E}

omit [Position P] [Store σ P] in
/-- An item that the settled writer records. -/
theorem settledRecord (h : Coupled W s s') {record : BlockWriter P → Io σ ρ P E →
      BlockWriter P × Io σ ρ P E × Bool} (hr : Recorder W BlockWriter.core record) (position : P)
    (event : E) :
    Coupled W { s with
        settled := (record s.settled s.io).1
        io := (record s.settled s.io).2.1.deliver position event (record s.settled s.io).2.2 }
      { s' with
        settled := (record s'.settled s'.io).1
        io := (record s'.settled s'.io).2.1.deliver position event
          (record s'.settled s'.io).2.2 } := by
  have hstep := (hr.stepped h.store rfl s.settled h.settledFrozen).2
  refine ⟨hstep.store, hstep.frozen, fun hw => ?_, ?_⟩
  · have hfrozen := h.windowFrozen hw
    show Frozen E (record s.settled s.io).2.1.record
    rw [hstep.keeps hfrozen]
    exact hfrozen
  · rcases h.cases with ⟨hsettled, hwindow, htwin⟩ | ⟨hsettled, hwindow, hsplit⟩
    · rcases hr.twin h.store h.settledFrozen htwin position event with
        ⟨hsame, htwin⟩ | ⟨hhealthy, hsplit⟩
      · rw [hsettled]
        exact .inl ⟨hsame, hwindow, htwin⟩
      · rw [hsettled]
        exact .inr ⟨.inr hhealthy, .inl hwindow, hsplit⟩
    · obtain ⟨hagrees, hsplit⟩ := hr.split h.store h.settledFrozen hsplit hsettled position event
      exact .inr ⟨hagrees, hwindow, hsplit⟩

omit [Position P] [Store σ P] in
/-- An item that the window records. -/
theorem windowRecord (h : Coupled W s s') {record : ConfirmationWindow P → Io σ ρ P E →
      ConfirmationWindow P × Io σ ρ P E × Bool} (hr : Recorder W ConfirmationWindow.core record)
    (position : P) (event : E) :
    Coupled W { s with
        window := (record s.window s.io).1
        io := (record s.window s.io).2.1.deliver position event (record s.window s.io).2.2 }
      { s' with
        window := (record s'.window s'.io).1
        io := (record s'.window s'.io).2.1.deliver position event
          (record s'.window s'.io).2.2 } := by
  have hstep := (hr.stepped h.store rfl s.window h.windowFrozen).2
  refine ⟨hstep.store, fun hw => ?_, hstep.frozen, ?_⟩
  · have hfrozen := h.settledFrozen hw
    show Frozen E (record s.window s.io).2.1.record
    rw [hstep.keeps hfrozen]
    exact hfrozen
  · rcases h.cases with ⟨hsettled, hwindow, htwin⟩ | ⟨hsettled, hwindow, hsplit⟩
    · rcases hr.twin h.store h.windowFrozen htwin position event with
        ⟨hsame, htwin⟩ | ⟨hhealthy, hsplit⟩
      · rw [hwindow]
        exact .inl ⟨hsettled, hsame, htwin⟩
      · rw [hwindow]
        exact .inr ⟨.inl hsettled, .inr hhealthy, hsplit⟩
    · obtain ⟨hagrees, hsplit⟩ := hr.split h.store h.windowFrozen hsplit hwindow position event
      exact .inr ⟨hsettled, hagrees, hsplit⟩

theorem backfillStep (hW : Reliable P W) (h : Coupled W s s') (finalCut : Option Nat)
    (item : P × E) :
    Coupled W (s.backfillStep finalCut item) (s'.backfillStep finalCut item) := by
  unfold Pipeline.backfillStep
  split
  · exact h.settledRecord (.settled hW item.1 item.2) item.1 item.2
  · exact h.windowRecord (.seeded hW item.1 item.2) item.1 item.2

theorem liveStep (hW : Reliable P W) (h : Coupled W s s') (item : Indexed P E) :
    Coupled W (s.liveStep item) (s'.liveStep item) := by
  cases item with
  | event position event => exact h.windowRecord (.live hW position event) position event
  | retract position =>
    rw [Pipeline.liveStep_retract, Pipeline.liveStep_retract]
    have hstep := ConfirmationWindow.retract_stepped h.store (rfl : s.io.record = s.io.record)
      s.window h.windowFrozen position
    refine ⟨hstep.store, fun hw => ?_, hstep.frozen, ?_⟩
    · have hfrozen := h.settledFrozen hw
      show Frozen E (s.window.retract s.io position).2.record
      rw [hstep.keeps hfrozen]
      exact hfrozen
    · have hboth (hrec : s'.io.record = s.io.record) :=
        ConfirmationWindow.retract_stepped h.store hrec s.window h.windowFrozen position
      rcases h.cases with ⟨hsettled, hwindow, htwin⟩ | ⟨hsettled, hwindow | hhalted, hsplit⟩
      · rw [hwindow]
        rcases htwin.step (hboth htwin.record) with ⟨hsame, htwin⟩ | ⟨hhealthy, hsplit⟩
        · exact .inl ⟨hsettled, hsame, htwin⟩
        · exact .inr ⟨.inl hsettled, .inr hhealthy, hsplit⟩
      · rw [hwindow]
        obtain ⟨hagrees, hsplit⟩ := hsplit.step (hboth hsplit.record)
        exact .inr ⟨hsettled, hagrees, hsplit⟩
      · have hidle : s'.window.retract s'.io position = (s'.window, s'.io) := by
          simp only [ConfirmationWindow.retract, hhalted, Bool.not_false, if_true]
        rw [hidle]
        exact .inr ⟨hsettled, .inr hhalted, hsplit.step_left hstep⟩

/-- The trailing group is written. -/
theorem finish (hW : Reliable P W) (h : Coupled W s s') :
    Coupled W ⟨(s.settled.finish s.io).1, s.window, (s.settled.finish s.io).2⟩
      ⟨(s'.settled.finish s'.io).1, s'.window, (s'.settled.finish s'.io).2⟩ := by
  have hstep := BlockWriter.finish_stepped hW h.store (rfl : s.io.record = s.io.record) s.settled
    h.settledFrozen
  refine ⟨hstep.store, hstep.frozen, fun hw => ?_, ?_⟩
  · have hfrozen := h.windowFrozen hw
    show Frozen E (s.settled.finish s.io).2.record
    rw [hstep.keeps hfrozen]
    exact hfrozen
  · have hboth (hrec : s'.io.record = s.io.record) :=
      BlockWriter.finish_stepped hW h.store hrec s.settled h.settledFrozen
    rcases h.cases with ⟨hsettled, hwindow, htwin⟩ | ⟨hsettled | hhalted, hwindow, hsplit⟩
    · rw [hsettled]
      rcases htwin.step (hboth htwin.record) with ⟨hsame, htwin⟩ | ⟨hhealthy, hsplit⟩
      · exact .inl ⟨hsame, hwindow, htwin⟩
      · exact .inr ⟨.inr hhealthy, .inl hwindow, hsplit⟩
    · rw [hsettled]
      obtain ⟨hagrees, hsplit⟩ := hsplit.step (hboth hsplit.record)
      exact .inr ⟨hagrees, hwindow, hsplit⟩
    · have hidle : s'.settled.finish s'.io = (s'.settled, s'.io) := by
        simp only [BlockWriter.finish, hhalted, Bool.false_eq_true, if_false]
      rw [hidle]
      exact .inr ⟨.inr hhalted, hwindow, hsplit.step_left hstep⟩

theorem settle (hW : Reliable P W) (h : Coupled W s s') : Coupled W s.settle s'.settle := by
  have hfinish := h.finish hW
  unfold Pipeline.settle
  generalize s.settled.finish s.io = r at hfinish
  generalize s'.settled.finish s'.io = r' at hfinish
  obtain ⟨settled, io⟩ := r
  obtain ⟨settled', io'⟩ := r'
  dsimp only at hfinish ⊢
  obtain ⟨hs, hsettledFrozen, hwindowFrozen, hcases⟩ := hfinish
  dsimp only at hs hsettledFrozen hwindowFrozen hcases
  have habsorb (w : ConfirmationWindow P) (watermark : Option P)
      (h : Agrees ConfirmationWindow.core w s'.window) :
      Agrees ConfirmationWindow.core (w.absorb watermark) (s'.window.absorb watermark) := by
    rcases h with h | h
    · rw [h]
      exact .inl rfl
    · refine .inr ?_
      rw [ConfirmationWindow.absorb_core]
      exact h
  rcases hcases with ⟨hsettled, hwindow, htwin⟩ | ⟨hsettled, hwindow, hsplit⟩
  · rw [hsettled, hwindow]
    split
    · refine ⟨hs, hsettledFrozen, ?_, .inl ⟨rfl, rfl, htwin⟩⟩
      rw [ConfirmationWindow.absorb_core]
      exact hwindowFrozen
    · have hstep := ConfirmationWindow.failWith_stepped hs htwin.record s.window hwindowFrozen
        fun e => (by simp : HaltReason.settledHalted ≠ .write e)
      refine ⟨hs, hsettledFrozen, hwindowFrozen, ?_⟩
      rcases htwin.step hstep with ⟨hsame, htwin⟩ | ⟨hhealthy, hsplit⟩
      · exact .inl ⟨rfl, hsame, htwin⟩
      · exact .inr ⟨.inl rfl, .inr hhealthy, hsplit⟩
  · -- a writer that has halted below the window halts the window,
    -- and the consumer sees nothing of it
    by_cases hB : settled'.core.healthy = true
    · obtain rfl : settled' = settled := hsettled.resolve_right (by simp [hB])
      rw [if_pos hB, if_pos hB]
      refine ⟨hs, hsettledFrozen, ?_, .inr ⟨.inl rfl, habsorb _ _ hwindow, hsplit⟩⟩
      rw [ConfirmationWindow.absorb_core]
      exact hwindowFrozen
    · rw [if_neg hB]
      split
      · refine ⟨hs, hsettledFrozen, ?_, .inr ⟨hsettled, .inr rfl, ?_⟩⟩
        · rw [ConfirmationWindow.absorb_core]
          exact hwindowFrozen
        · have := hsplit.append [] [.halted s'.window.core.writer .settledHalted] rfl rfl
          rw [List.append_nil] at this
          exact this
      · exact ⟨hs, hsettledFrozen, hwindowFrozen, .inr ⟨hsettled, .inr rfl,
          hsplit.append [.halted s.window.core.writer .settledHalted]
            [.halted s'.window.core.writer .settledHalted] rfl rfl⟩⟩

end Coupled

/-! ### The whole subscription -/

omit [Store σ P] in
theorem coupled_start {store : σ} (hs : W store) (store' : σ) (record : ρ) (depth : Nat)
    (finalCut : Option Nat) (seed : Option P) :
    Coupled (E := E) W (.start store record depth finalCut seed)
      (.start store' record depth finalCut seed) where
  store := hs
  settledFrozen h := absurd h Bool.false_ne_true
  windowFrozen h := absurd h Bool.false_ne_true
  cases := .inl ⟨rfl, rfl, rfl, rfl, fun _ hx => absurd hx List.not_mem_nil⟩

theorem coupled_persistAndEmit (hW : Reliable P W) {store : σ} (hs : W store) (store' : σ)
    (backfill : List (P × E)) (live : List (Indexed P E)) (record : ρ) (depth : Nat)
    (finalCut : Option Nat) (seed : Option P) :
    Coupled W (persistAndEmit backfill live store record depth finalCut seed)
      (persistAndEmit backfill live store' record depth finalCut seed) := by
  have hbackfill : ∀ (s s' : Pipeline σ ρ P E), Coupled W s s' →
      Coupled W (backfill.foldl (Pipeline.backfillStep finalCut) s)
        (backfill.foldl (Pipeline.backfillStep finalCut) s') := by
    induction backfill with
    | nil => exact fun s s' h => h
    | cons item rest ih => exact fun s s' h => ih _ _ (h.backfillStep hW finalCut item)
  have hlive : ∀ (s s' : Pipeline σ ρ P E), Coupled W s s' →
      Coupled W (live.foldl Pipeline.liveStep s) (live.foldl Pipeline.liveStep s') := by
    induction live with
    | nil => exact fun s s' h => h
    | cons item rest ih => exact fun s s' h => ih _ _ (h.liveStep hW item)
  exact hlive _ _ ((hbackfill _ _ (coupled_start hs store' record depth finalCut seed)).settle hW)

/-- Store failures never withhold events.  Whatever writes of the second store fail, its consumer
receives all that the consumer of the store that never fails receives, in the same order; and up to
the first failed write the two subscriptions do the same. -/
theorem failures_withhold_nothing (hW : Reliable P W) {store : σ} (hs : W store) (store' : σ)
    (backfill : List (P × E)) (live : List (Indexed P E)) (record : ρ) (depth : Nat)
    (finalCut : Option Nat) (seed : Option P) :
    let sound := (persistAndEmit backfill live store record depth finalCut seed).io.effects
    let failing := (persistAndEmit backfill live store' record depth finalCut seed).io.effects
    (yields sound).Sublist (yields failing) ∧
      ((failing = sound ∧ ∀ x ∈ failing, ¬ x.WriteFailed) ∨ Diverged sound failing) := by
  intro sound failing
  have h := coupled_persistAndEmit hW hs store' backfill live record depth finalCut seed
  rcases h.cases with ⟨-, -, htwin⟩ | ⟨-, -, hsplit⟩
  · refine ⟨?_, .inl ⟨htwin.effects, ?_⟩⟩
    · show (yields sound).Sublist (yields failing)
      rw [show failing = sound from htwin.effects]
    · rw [show failing = sound from htwin.effects]
      exact htwin.clean
  · exact ⟨hsplit.delivered, .inr hsplit.diverged⟩

/-- A backfill of two instants, and a live tail that re-delivers the second one. -/
def redelivered : List (TimeFrontier × ValueSet) := [(⟨5, {"a"}⟩, ⟨1⟩), (⟨6, {"b"}⟩, ⟨2⟩)]

def redeliveredLive : List (Indexed TimeFrontier ValueSet) :=
  [.event ⟨6, {"b"}⟩ ⟨2⟩, .event ⟨9, {"c"}⟩ ⟨3⟩]

/-- What the subscription does with a store that fails these writes. -/
def redeliveredRun (fails : List Nat) : List (Effect TimeFrontier ValueSet) :=
  (persistAndEmit redelivered redeliveredLive (MemoryStore.new fails : MemoryStore TimeFrontier)
    (Record.inferred ValueSet.table) 2 (some 5) none).io.effects

theorem failures_withhold_nothing_redelivered :
    (yields (redeliveredRun [])).Sublist (yields (redeliveredRun [0])) ∧
      ((redeliveredRun [0] = redeliveredRun [] ∧ ∀ x ∈ redeliveredRun [0], ¬ x.WriteFailed) ∨
        Diverged (redeliveredRun []) (redeliveredRun [0])) := by
  have hsound : (MemoryStore.new [] : MemoryStore TimeFrontier).fails = [] := rfl
  have h := failures_withhold_nothing MemoryStore.reliable hsound (.new [0]) redelivered
    redeliveredLive (Record.inferred ValueSet.table) 2 (some 5) none
  exact h

end ArtemisLight
