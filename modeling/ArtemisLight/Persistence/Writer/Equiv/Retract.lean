import ArtemisLight.Persistence.Scripted
import ArtemisLight.Persistence.Writer.Equiv.Window
import ArtemisLight.Persistence.Writer.Pipeline

/-!
## Batches of retractions

A reorg is reported as one retraction for each removed log.  `retractAll_spec` describes the groups
that a batch leaves: a seeded group survives the first retraction that reaches it, as its dedupe
set, and is dropped by the second.  `retractAll_iff` says when the batch acts as the single
retraction at its lowest key.
-/

namespace ArtemisLight

namespace ConfirmationWindow

variable {σ ρ P E : Type} [Position P]

/-- Apply the retractions in order. -/
def retractAll (w : ConfirmationWindow P) (io : Io σ ρ P E) (positions : List P) :
    ConfirmationWindow P × Io σ ρ P E :=
  positions.foldl (fun s position => s.1.retract s.2 position) (w, io)

/-! ### Reachable windows -/

section Reached

/-- The windows that a subscription can leave, whatever the store and the record answer. -/
inductive Reached (σ ρ E : Type) [Store σ P] [RecordOps ρ E] : ConfirmationWindow P → Prop where
  | new (depth : Nat) (seed : Option P) : Reached σ ρ E (new depth seed)
  | record {w : ConfirmationWindow P} (io : Io σ ρ P E) (position : P) (event : E) :
      Reached σ ρ E w → Reached σ ρ E (w.record io position event).1
  | recordSeeded {w : ConfirmationWindow P} (io : Io σ ρ P E) (position : P) (event : E) :
      Reached σ ρ E w → Reached σ ρ E (w.recordSeeded io position event).1
  | retract {w : ConfirmationWindow P} (io : Io σ ρ P E) (position : P) :
      Reached σ ρ E w → Reached σ ρ E (w.retract io position).1
  | absorb {w : ConfirmationWindow P} (settled : Option P) :
      Reached σ ρ E w → Reached σ ρ E (w.absorb settled)
  | halt {w : ConfirmationWindow P} (io : Io σ ρ P E) (reason : HaltReason P) :
      Reached σ ρ E w → Reached σ ρ E (w.halt io reason).1

/-- A halted window holds no group. -/
def Dropped (w : ConfirmationWindow P) : Prop :=
  w.core.healthy = false → ∀ k : Nat, w.pending[k]? = none

omit [Position P] in
theorem dropped_of_healthy {w : ConfirmationWindow P} (h : w.core.healthy = true) : w.Dropped :=
  fun hw => absurd (h.symm.trans hw) (by simp)

omit [Position P] in
theorem dropped_halted (w : ConfirmationWindow P) : w.halted.Dropped := fun _ _ => rfl

variable [Store σ P]

theorem dropped_flushLoop {w : ConfirmationWindow P} {io : Io σ ρ P E} {bs : List Nat}
    (h : w.Dropped) : (w.flushLoop io bs).1.Dropped := by
  induction bs generalizing w io with
  | nil => exact h
  | cons b bs ih =>
    unfold flushLoop
    rcases hb : w.pending[b]? with _ | pending
    · exact ih h
    · have hhealthy : w.core.healthy = true := by
        by_contra hw
        have := h (Bool.eq_false_iff.mpr hw) b
        rw [hb] at this
        exact absurd this (by simp)
      simp only
      split
      case h_1 => exact fun _ _ => rfl
      case h_2 core io' hflush =>
        -- a write that succeeds leaves the core as it was
        apply ih
        apply dropped_of_healthy
        have hcore : core = w.core := by
          unfold GapFreeWriter.flush at hflush
          split at hflush
          · exact (Prod.mk.inj (Prod.mk.inj hflush).2).1.symm
          · split at hflush
            · exact (Prod.mk.inj (Prod.mk.inj hflush).2).1.symm
            · exact absurd (Prod.mk.inj hflush).1 (by simp)
        show core.healthy = true
        rw [hcore]
        exact hhealthy

theorem dropped_flushMatured {w : ConfirmationWindow P} {io : Io σ ρ P E} (h : w.Dropped) :
    (w.flushMatured io).1.Dropped := by
  unfold flushMatured
  rcases w.head with _ | head
  · exact h
  · exact dropped_flushLoop h

variable [RecordOps ρ E]

theorem Reached.dropped (hP : Position.reobservation P = .halt) {w : ConfirmationWindow P}
    (h : Reached σ ρ E w) : w.Dropped := by
  induction h with
  | new => exact dropped_of_healthy rfl
  | @record w io position event _ ih =>
    rcases record_cases hP w io position event with ⟨-, h⟩ | ⟨-, -, h⟩ | ⟨-, -, e, record, -, h⟩ |
      ⟨hhealthy, -, row, schema, record, w', io', delivered, -, hacc, h⟩ <;> rw [h]
    · exact ih
    · exact w.dropped_halted
    · exact w.dropped_halted
    · exact dropped_flushMatured (dropped_of_healthy (by rw [hacc.core]; exact hhealthy))
  | @recordSeeded w io position event _ ih =>
    rcases recordSeeded_cases hP w io position event with ⟨-, h⟩ | ⟨-, _, -, -, h⟩ |
      ⟨-, -, e, record, -, h⟩ | ⟨hhealthy, -, row, schema, record, -, h⟩ <;> rw [h]
    · exact ih
    · exact w.dropped_halted
    · exact w.dropped_halted
    · exact dropped_flushMatured (dropped_of_healthy hhealthy)
  | @retract w io position _ ih =>
    rcases retract_cases hP w io position with ⟨-, h⟩ | ⟨-, -, h⟩ | ⟨hhealthy, -, h⟩ <;> rw [h]
    · exact ih
    · exact w.dropped_halted
    · exact dropped_of_healthy hhealthy
  | absorb settled _ ih =>
    intro hw k
    rw [absorb_pending]
    exact ih (by rwa [absorb_core] at hw) k
  | halt => exact fun _ _ => rfl

end Reached

/-! ### What a batch leaves -/

/-- The number of retractions that reach the group at `k`. -/
def reaching (positions : List P) (k : Nat) : Nat :=
  positions.countP fun position => decide (Position.sortKey position ≤ k)

theorem reaching_cons_of_le {position : P} {k : Nat} (h : Position.sortKey position ≤ k)
    (positions : List P) : reaching (position :: positions) k = reaching positions k + 1 :=
  List.countP_cons_of_pos (by simpa using h)

theorem reaching_cons_of_lt {position : P} {k : Nat} (h : k < Position.sortKey position)
    (positions : List P) : reaching (position :: positions) k = reaching positions k :=
  List.countP_cons_of_neg (by simpa using h)

/-- What `n` retractions leave of a group. -/
def retracted (n : Nat) (pending : Pending P) : Option (Pending P) :=
  match n with
  | 0 => some pending
  | 1 => if pending.seeded then some pending.unseed else none
  | _ + 2 => none

omit [Position P] in
@[simp] theorem retracted_zero : retracted (P := P) 0 = some := rfl

omit [Position P] in
theorem retracted_succ (n : Nat) (pending : Pending P) :
    retracted (n + 1) pending
      = (if pending.seeded then some pending.unseed else none).bind (retracted n) := by
  rcases n with _ | _ | n <;> cases h : pending.seeded <;> simp [retracted, Pending.unseed, h]

omit [Position P] in
/-- Several retractions leave of a group what one leaves, unless it is seeded. -/
theorem retracted_eq_one {n : Nat} {pending : Pending P} (hn : 0 < n)
    (hseeded : pending.seeded = true → n ≤ 1) : retracted n pending = retracted 1 pending := by
  obtain ⟨n, rfl⟩ := Nat.exists_eq_add_of_lt hn
  rw [Nat.zero_add] at hseeded ⊢
  cases h : pending.seeded with
  | true =>
    obtain rfl : n = 0 := by
      have := hseeded h
      omega
    rfl
  | false =>
    rw [retracted_succ, retracted_succ]
    simp [h]

/-- The retractions that reach a group include the lowest one. -/
theorem reaching_pos_iff {positions : List P} {lowest : P} (hlow : lowest ∈ positions)
    (hmin : ∀ position ∈ positions, Position.sortKey lowest ≤ Position.sortKey position) {k : Nat} :
    0 < reaching positions k ↔ Position.sortKey lowest ≤ k := by
  rw [reaching, List.countP_pos_iff]
  constructor
  · rintro ⟨position, hm, hle⟩
    exact (hmin position hm).trans (by simpa using hle)
  · exact fun hk => ⟨lowest, hlow, by simpa using hk⟩

/-- What a batch of retractions above the flushed mark leaves. -/
structure Retracted (w : ConfirmationWindow P) (positions : List P) (w' : ConfirmationWindow P) :
    Prop where
  core : w'.core = w.core
  depth : w'.depth = w.depth
  pending : ∀ k : Nat, w'.pending[k]? = (w.pending[k]?).bind (retracted (reaching positions k))
  head : w'.head = w.head.map fun h =>
    positions.foldl (fun h position => min h (Position.sortKey position - 1)) h
  flushed : w'.flushed = w.flushed
  watermark : w'.watermark = w.watermark

theorem retractAll_spec (hP : Position.reobservation P = .halt) {w : ConfirmationWindow P}
    (io : Io σ ρ P E) (positions : List P) (hhealthy : w.core.healthy = true)
    (habove : ∀ position ∈ positions, ∀ f ∈ w.flushed, f < Position.sortKey position) :
    Retracted w positions (w.retractAll io positions).1 := by
  induction positions generalizing w io with
  | nil =>
    constructor
    case pending => intro k; simp [retractAll, reaching]
    case head => simp [retractAll]
    all_goals rfl
  | cons position positions ih =>
    rcases retract_cases hP w io position with ⟨h, -⟩ | ⟨-, ⟨f, hf, hle⟩, -⟩ | ⟨-, -, hstep⟩
    · exact absurd (hhealthy.symm.trans h) (by simp)
    · exact absurd (habove position (by simp) f hf) (Nat.not_lt.mpr hle)
    · have hrest : (w.retractAll io (position :: positions)).1
          = ((w.retract io position).1.retractAll (w.retract io position).2 positions).1 := rfl
      rw [hrest, hstep]
      obtain ⟨hcore, hdepth, hpending, hhead, hflushed, hwatermark⟩ :=
        ih (w := { w.rewind (Position.sortKey position) with
            head := w.head.map (min · (Position.sortKey position - 1)) })
          (io.emit (.rewound (Position.sortKey position))) hhealthy
          fun q hq f hf => habove q (List.mem_cons_of_mem _ hq) f hf
      refine ⟨hcore, hdepth, fun k => ?_, ?_, hflushed, hwatermark⟩
      · rw [hpending k]
        show ((w.rewind (Position.sortKey position)).pending[k]?).bind _ = _
        rw [getElem?_rewind, Option.bind_assoc]
        congr 1
        funext p
        by_cases hk : Position.sortKey position ≤ k
        · rw [reaching_cons_of_le hk, if_pos hk, retracted_succ]
        · rw [reaching_cons_of_lt (Nat.lt_of_not_le hk), if_neg hk]
          rfl
      · rw [hhead]
        show (w.head.map _).map _ = _
        rw [Option.map_map]
        rfl

/-- The lowest retraction decides how far the head goes back. -/
theorem foldl_min_lowest {positions : List P} {lowest : P} (hlow : lowest ∈ positions)
    (hmin : ∀ position ∈ positions, Position.sortKey lowest ≤ Position.sortKey position)
    (h : Nat) :
    positions.foldl (fun h position => min h (Position.sortKey position - 1)) h
      = min h (Position.sortKey lowest - 1) := by
  have hle : ∀ (l : List P) (h x : Nat),
      x ≤ l.foldl (fun h position => min h (Position.sortKey position - 1)) h
        ↔ x ≤ h ∧ ∀ position ∈ l, x ≤ Position.sortKey position - 1 := by
    intro l
    induction l with
    | nil => simp
    | cons position l ih =>
      intro h x
      rw [List.foldl_cons, ih, Nat.le_min, List.forall_mem_cons, and_assoc]
  apply eq_of_forall_le_iff
  intro x
  rw [hle, Nat.le_min]
  refine and_congr_right fun _ => ⟨fun hall => hall lowest hlow, fun hx position hm => ?_⟩
  have := hmin position hm
  omega

omit [Position P] in
theorem eq_of_getElem? {w w' : ConfirmationWindow P} (hcore : w.core = w'.core)
    (hdepth : w.depth = w'.depth) (hpending : ∀ k : Nat, w.pending[k]? = w'.pending[k]?)
    (hhead : w.head = w'.head) (hflushed : w.flushed = w'.flushed)
    (hwatermark : w.watermark = w'.watermark) : w = w' := by
  cases w
  cases w'
  simp only at hcore hdepth hpending hhead hflushed hwatermark
  rw [hcore, hdepth, Std.ExtTreeMap.ext_getElem? hpending, hhead, hflushed, hwatermark]

/-! ### When a batch acts as one retraction -/

section One

variable [Store σ P] [RecordOps ρ E]

/-- The backfill's rows at or above `key` are still recognised when they are re-emitted. -/
def Recognises (σ ρ E : Type) [Store σ P] [RecordOps ρ E] (w w' : ConfirmationWindow P)
    (key : Nat) : Prop :=
  ∀ (k : Nat) p row, w.pending[k]? = some p → p.seeded = true → key ≤ k → row ∈ p.rows →
    ∀ (io : Io σ ρ P E) (position : P) (event : E) record, Position.sortKey position = k →
      RecordOps.encode io.record event = (.ok row, record) →
        (w'.record io position event).2.2 = false

variable {w : ConfirmationWindow P} {positions : List P} {lowest : P}

/-- A single retraction keeps the backfill's copy of every group it reaches. -/
theorem recognises_retract (hP : Position.reobservation P = .halt) (hw : w.Dropped)
    (io : Io σ ρ P E) (habove : ∀ f ∈ w.flushed, f < Position.sortKey lowest) :
    Recognises σ ρ E w (w.retract io lowest).1 (Position.sortKey lowest) := by
  intro k p row hp hseeded hkey hrow io' position event record hk hencode
  have hhealthy : w.core.healthy = true := by
    by_contra h
    have := hw (Bool.eq_false_iff.mpr h) k
    rw [hp] at this
    exact nomatch this
  obtain ⟨hcore, -, hpending, hhead, hflushed, -⟩ :=
    retractAll_spec hP io [lowest] hhealthy (by simpa using habove)
  change (w.retract io lowest).1.core = _ at hcore
  change ∀ k : Nat, (w.retract io lowest).1.pending[k]? = _ at hpending
  change (w.retract io lowest).1.head = _ at hhead
  change (w.retract io lowest).1.flushed = _ at hflushed
  have hgroup : (w.retract io lowest).1.pending[k]? = some p.unseed := by
    rw [hpending, hp, reaching_cons_of_le hkey]
    simp [reaching, retracted, hseeded]
  rcases record_cases hP (w.retract io lowest).1 io' position event with ⟨h, -⟩ |
    ⟨-, ⟨f, hf, hle⟩, -⟩ | ⟨-, -, e, record', h, -⟩ |
    ⟨-, -, row', schema, record', w', io'', delivered, h, hacc, hrec⟩
  · rw [hcore, hhealthy] at h
    exact nomatch h
  · rw [hflushed] at hf
    have := habove f hf
    omega
  · rw [hencode] at h
    exact nomatch h
  · obtain ⟨rfl, rfl⟩ : row = row' ∧ record = record' := by
      rw [hencode] at h
      simpa using h
    rw [hrec]
    apply hacc.delivered.mpr
    -- the head went back below the group, so its re-emission does not rewind it
    have hreorg : ((w.retract io lowest).1.withSchema schema).reorgAt k = false := by
      show (w.retract io lowest).1.head.any _ = false
      rw [hhead]
      cases w.head with
      | none => rfl
      | some h =>
        simp only [Option.map_some, Option.any_some, List.foldl_cons, List.foldl_nil,
          decide_eq_false_iff_not]
        omega
    refine ⟨p.unseed, ?_, hrow⟩
    rw [hk]
    show ((w.retract io lowest).1.pending[k]?).bind _ = _
    rw [hgroup, Option.bind_some, hreorg]
    rfl

omit [Store σ P] [RecordOps ρ E] in
/-- A halted window ignores every retraction. -/
theorem retractAll_halted (hhealthy : w.core.healthy = false) (io : Io σ ρ P E)
    (positions : List P) : (w.retractAll io positions).1 = w := by
  induction positions generalizing io with
  | nil => rfl
  | cons position positions ih =>
    have hstep : w.retract io position = (w, io) := by
      unfold retract
      simp only [hhealthy, Bool.not_false, if_true]
    show ((w.retract io position).1.retractAll (w.retract io position).2 positions).1 = w
    rw [hstep]
    exact ih io

omit [Store σ P] [RecordOps ρ E] in
/-- A batch that reaches no seeded group twice leaves what its lowest retraction leaves. -/
theorem Retracted.eq_one {v v' : ConfirmationWindow P} (hall : Retracted w positions v)
    (hone : Retracted w [lowest] v') (hlow : lowest ∈ positions)
    (hmin : ∀ position ∈ positions, Position.sortKey lowest ≤ Position.sortKey position)
    (hcond : ∀ (k : Nat) p, w.pending[k]? = some p → p.seeded = true →
      reaching positions k ≤ 1) : v = v' := by
  have hpending : ∀ k : Nat, v.pending[k]? = v'.pending[k]? := by
    intro k
    rw [hall.pending, hone.pending]
    rcases hp : w.pending[k]? with _ | p
    · rfl
    · show retracted (reaching positions k) p = retracted (reaching [lowest] k) p
      by_cases hk : Position.sortKey lowest ≤ k
      · rw [reaching_cons_of_le hk]
        exact retracted_eq_one ((reaching_pos_iff hlow hmin).mpr hk) (hcond k p hp)
      · have hzero : reaching positions k = 0 := by
          by_contra h
          exact hk ((reaching_pos_iff hlow hmin).mp (Nat.pos_of_ne_zero h))
        rw [hzero, reaching_cons_of_lt (Nat.lt_of_not_le hk)]
        rfl
  have hhead : v.head = v'.head := by
    rw [hall.head, hone.head]
    congr 1
    funext h
    rw [foldl_min_lowest hlow hmin]
    rfl
  exact eq_of_getElem? (hall.core.trans hone.core.symm) (hall.depth.trans hone.depth.symm) hpending
    hhead (hall.flushed.trans hone.flushed.symm) (hall.watermark.trans hone.watermark.symm)

omit [Store σ P] [RecordOps ρ E] in
/-- A batch that leaves what its lowest retraction leaves reaches no seeded group twice. -/
theorem Retracted.reaching_le {v : ConfirmationWindow P} (hall : Retracted w positions v)
    (hone : Retracted w [lowest] v) (hlow : lowest ∈ positions)
    (hmin : ∀ position ∈ positions, Position.sortKey lowest ≤ Position.sortKey position) {k : Nat}
    {p : Pending P} (hp : w.pending[k]? = some p) (hseeded : p.seeded = true) :
    reaching positions k ≤ 1 := by
  by_contra hmany
  have hk := (reaching_pos_iff hlow hmin).mp (show 0 < reaching positions k by omega)
  have hgroup := hone.pending k
  rw [hall.pending, hp, reaching_cons_of_le hk] at hgroup
  obtain ⟨n, hn⟩ : ∃ n, reaching positions k = n + 2 := ⟨reaching positions k - 2, by omega⟩
  rw [hn] at hgroup
  simp [reaching, retracted, hseeded] at hgroup

/-- A batch of retractions above the flushed mark of a reachable window acts as the single
retraction at its lowest key exactly when no seeded group is reached by more than one of them. -/
theorem retractAll_iff (hP : Position.reobservation P = .halt) (hw : Reached σ ρ E w)
    (io : Io σ ρ P E) (hlow : lowest ∈ positions)
    (hmin : ∀ position ∈ positions, Position.sortKey lowest ≤ Position.sortKey position)
    (habove : ∀ position ∈ positions, ∀ f ∈ w.flushed, f < Position.sortKey position) :
    ((w.retractAll io positions).1 = (w.retract io lowest).1 ∧
        Recognises σ ρ E w (w.retractAll io positions).1 (Position.sortKey lowest)) ↔
      ∀ (k : Nat) p, w.pending[k]? = some p → p.seeded = true → reaching positions k ≤ 1 := by
  cases hhealthy : w.core.healthy with
  | false =>
    -- a halted window holds no group
    have hnone := hw.dropped hP hhealthy
    refine iff_of_true ⟨(retractAll_halted hhealthy io positions).trans
      (retractAll_halted hhealthy io [lowest]).symm, ?_⟩ ?_
    · intro k p row hp
      rw [hnone k] at hp
      exact nomatch hp
    · intro k p hp
      rw [hnone k] at hp
      exact nomatch hp
  | true =>
    have hall := retractAll_spec hP io _ hhealthy habove
    have hone : Retracted w [lowest] (w.retract io lowest).1 :=
      retractAll_spec hP io _ hhealthy (by simpa using habove lowest hlow)
    constructor
    · rintro ⟨hsame, -⟩ k p hp hseeded
      rw [hsame] at hall
      exact hall.reaching_le hone hlow hmin hp hseeded
    · intro hcond
      have hsame := hall.eq_one hone hlow hmin hcond
      refine ⟨hsame, ?_⟩
      rw [hsame]
      exact recognises_retract hP (hw.dropped hP) io (habove lowest hlow)

end One

/-! ### Two logs of one block -/

/-- The handles of a subscription that stores value sets. -/
def retractIo : Io (MemoryStore BlockPosition) Record BlockPosition ValueSet :=
  ⟨MemoryStore.new [], .inferred ValueSet.table, []⟩

/-- A window of depth 2 that holds the event of block 10 from the backfill. -/
def seededWindow : ConfirmationWindow BlockPosition :=
  ((ConfirmationWindow.new 2 none).recordSeeded retractIo ⟨10⟩ (⟨7⟩ : ValueSet)).1

theorem seededWindow_reached :
    Reached (MemoryStore BlockPosition) Record ValueSet seededWindow :=
      .recordSeeded _ _ _ (.new 2 none)

/-- Two removed logs of block 10 retract it twice: the second retraction drops the group with its
dedupe set, and the event is delivered again when it is re-emitted. -/
theorem second_retraction_drops_dedupe_set :
    Reached (MemoryStore BlockPosition) Record ValueSet seededWindow ∧ seededWindow.flushed = none ∧
      (seededWindow.retractAll retractIo [⟨10⟩, ⟨10⟩]).1 ≠ (seededWindow.retract retractIo ⟨10⟩).1 ∧
      ((seededWindow.retract retractIo ⟨10⟩).1.record retractIo ⟨10⟩ (⟨7⟩ : ValueSet)).2.2 = false ∧
      ((seededWindow.retractAll retractIo [⟨10⟩, ⟨10⟩]).1.record retractIo ⟨10⟩
        (⟨7⟩ : ValueSet)).2.2 = true := by
  refine ⟨seededWindow_reached, by decide +kernel, fun h =>
    ?_, by decide +kernel, by decide +kernel⟩
  have hkeys : (seededWindow.retractAll retractIo [⟨10⟩, ⟨10⟩]).1.pending.keys = [] := by
    decide +kernel
  rw [h] at hkeys
  exact absurd hkeys (by decide +kernel)

/-- Retractions of blocks 12 and 10 act as the one of block 10. -/
theorem retractions_above_act_as_one :
    (seededWindow.retractAll retractIo [⟨12⟩, ⟨10⟩]).1
      = (seededWindow.retract retractIo ⟨10⟩).1 := by
  have hlow : (⟨10⟩ : BlockPosition) ∈ [(⟨12⟩ : BlockPosition), ⟨10⟩] := by simp
  have hmin : ∀ position ∈ [(⟨12⟩ : BlockPosition), ⟨10⟩],
      Position.sortKey (⟨10⟩ : BlockPosition) ≤ Position.sortKey position := by decide
  have habove : ∀ position ∈ [(⟨12⟩ : BlockPosition), ⟨10⟩], ∀ f ∈ seededWindow.flushed,
      f < Position.sortKey position := by decide +kernel
  have hkeys : seededWindow.pending.keys = [10] := by decide +kernel
  refine ((retractAll_iff rfl seededWindow_reached retractIo hlow hmin habove).mpr
    fun k p hp _ => ?_).1
  have hk : k ∈ seededWindow.pending.keys := by
    rw [Std.ExtTreeMap.mem_keys, Std.ExtTreeMap.mem_iff_isSome_getElem?, hp]
    rfl
  rw [hkeys, List.mem_singleton] at hk
  rw [hk]
  decide

end ConfirmationWindow

end ArtemisLight
