import ArtemisLight.Persistence.Sql.Equiv.StoredPosition

/-!
## The lazy migration

Any number of store instances share one database, which starts as an archive of before the
migration. Their write attempts interleave, and some of them fail.  A write that loses a race is two
attempts, with those of the winner in between.
-/

namespace ArtemisLight

/-- The committed database, and the migration check of each store instance. -/
structure Deployment where
  db : Database
  checked : Nat → Bool

namespace Deployment

variable {P : Type} [Position P] [PositionEncoding P]

/-- One store instance attempts a write. -/
def attempt (D : Deployment) (d : Dialect) (i : Nat) (faults : Nat → Option Fault)
    (schema : TableSchema) (position : P) (rows : List Row) : Except WriteError Unit × Deployment :=
  let (result, store) := SqlStore.writeOnce d faults ⟨D.db, D.checked i⟩ schema position rows
  (result, ⟨store.db, Function.update D.checked i store.migrationChecked⟩)

/-- Whether the progress table has its `position` column in the second database alone. -/
def migrates (db db' : Database) : Nat :=
  match db.progress, db'.progress with
  | some (.unmigrated _), some (.migrated _) => 1
  | _, _ => 0

/-- A run of attempts, with the tables of those that succeeded and the number of migrations. -/
inductive Reaches (d : Dialect) (start : Deployment) : List String → Nat → Deployment → Prop where
  | refl : Reaches d start [] 0 start
  | failed {written : List String} {migrations : Nat} {D D' : Deployment} {P : Type} [Position P]
      [PositionEncoding P] (i : Nat) (faults : Nat → Option Fault) (schema : TableSchema)
      (position : P) (rows : List Row) (e : WriteError) :
      Reaches d start written migrations D →
      D.attempt d i faults schema position rows = (.error e, D') →
      Reaches d start written (migrations + migrates D.db D'.db) D'
  | committed {written : List String} {migrations : Nat} {D D' : Deployment} {P : Type} [Position P]
      [PositionEncoding P] (i : Nat) (faults : Nat → Option Fault) (schema : TableSchema)
      (position : P) (rows : List Row) :
      Reaches d start written migrations D →
      D.attempt d i faults schema position rows = (.ok (), D') →
      Reaches d start (written ++ [schema.table]) (migrations + migrates D.db D'.db) D'

end Deployment

/-- What the `last_block` cells of an old archive say. -/
def archived (lastBlocks : String → Option SqlValue) (table : String) : Option BlockPosition :=
  match lastBlocks table with
  | some (.integer n) => some ⟨n.toNat⟩
  | _ => none

variable {d : Dialect} {lastBlocks : String → Option SqlValue}

/-! ### An attempt -/

/-- A successful attempt writes and sets the instance's flag; a failed one changes nothing. -/
theorem Deployment.attempt_cases {P : Type} [Position P] [PositionEncoding P] (D : Deployment)
    (i : Nat) (faults : Nat → Option Fault) (schema : TableSchema) (position : P)
    (rows : List Row) :
    (∃ db, D.attempt d i faults schema position rows
        = (.ok (), ⟨db, Function.update D.checked i true⟩) ∧
        Written d schema position rows D.db db) ∨
      ∃ e, D.attempt d i faults schema position rows = (.error e, D) := by
  unfold attempt
  rcases writeOnce_cases (d := d) ⟨D.db, D.checked i⟩ schema position rows with
    ⟨db, h, hwritten⟩ | ⟨e, h⟩
  · refine .inl ⟨db, ?_, hwritten⟩
    rw [h]
  · refine .inr ⟨e, ?_⟩
    rw [h]
    show (_, (⟨D.db, Function.update D.checked i (D.checked i)⟩ : Deployment)) = _
    rw [Function.update_eq_self]

/-- A write leaves the `position` column behind. -/
theorem Written.hasPosition {P : Type} [Position P] [PositionEncoding P] {schema : TableSchema}
    {position : P} {rows : List Row} {db db' : Database}
    (h : Written d schema position rows db db') : db'.HasPosition := by
  obtain ⟨prev, -, -, hprogress⟩ := h.progress
  exact ⟨_, hprogress⟩

/-! ### A run -/

/-- What holds after every run from an old archive. -/
structure Lazily (d : Dialect) (lastBlocks : String → Option SqlValue) (written : List String)
    (migrations : Nat) (D : Deployment) : Prop where
  represents : ∀ t ∉ written, Represents d D.db t (archived lastBlocks t)
  /-- The archive is as it was, or migrated once. -/
  progress : (D.db.progress = some (.unmigrated lastBlocks) ∧ migrations = 0) ∨
    (D.db.HasPosition ∧ migrations = 1)
  checked : ∀ i, D.checked i = true → D.db.HasPosition

/-- The cells of an old archive. -/
def Blocks (lastBlocks : String → Option SqlValue) : Prop :=
  ∀ t cell, lastBlocks t = some cell → ∃ n : Nat, n ≤ i64Max ∧ cell = .integer n

theorem Lazily.start {D : Deployment} (hp : D.db.progress = some (.unmigrated lastBlocks))
    (hcells : Blocks lastBlocks) (hnew : ∀ i, D.checked i = false) :
    Lazily d lastBlocks [] 0 D where
  represents t _ := by
    unfold archived
    cases hcell : lastBlocks t with
    | none => simp only [Represents, Database.progressRows, hp, hcell, Option.map_none]
    | some cell =>
      obtain ⟨n, hn, rfl⟩ := hcells t cell hcell
      have hmax : i64Max ≤ u64Max := by decide
      refine ⟨toString n, ?_, BlockPosition.decode_encode (p := ⟨n⟩) (Nat.le_trans hn hmax)⟩
      simp only [Database.progressRows, hp, hcell, Option.map_some, ProgressRow.backfilled, if_true,
        d.castText_integer, Int.toNat_natCast]
  progress := .inl ⟨hp, rfl⟩
  checked i hi := by
    rw [hnew i] at hi
    exact absurd hi (by simp)

theorem migrates_self (db : Database) : Deployment.migrates db db = 0 := by
  unfold Deployment.migrates
  split
  · rename_i hold hnew
    exact nomatch hold.symm.trans hnew
  · rfl

theorem Lazily.run {start D : Deployment} {written : List String} {migrations : Nat}
    (hstart : Lazily d lastBlocks [] 0 start)
    (hrun : Deployment.Reaches d start written migrations D) :
    Lazily d lastBlocks written migrations D := by
  induction hrun with
  | refl => exact hstart
  | failed i faults schema position rows e _ hattempt ih =>
    rename_i D D' _ _ _ _
    rcases D.attempt_cases (d := d) i faults schema position rows with ⟨db, h, -⟩ | ⟨e', h⟩
    · rw [hattempt] at h
      exact nomatch (Prod.mk.inj h).1
    · rw [hattempt] at h
      obtain rfl := (Prod.mk.inj h).2
      rw [migrates_self]
      exact ih
  | committed i faults schema position rows _ hattempt ih =>
    rename_i written migrations D D' _ _ _ _
    rcases D.attempt_cases (d := d) i faults schema position rows with ⟨db, h, hwritten⟩ | ⟨e', h⟩
    · rw [hattempt] at h
      obtain rfl := (Prod.mk.inj h).2
      obtain ⟨after, hafter⟩ := hwritten.hasPosition
      refine ⟨fun t ht => ?_, .inr ⟨⟨after, hafter⟩, ?_⟩, fun _ _ => ⟨after, hafter⟩⟩
      · rw [List.mem_append, not_or, List.mem_singleton] at ht
        exact hwritten.represents_other ht.2 (ih.represents t ht.1)
      · unfold Deployment.migrates
        rcases ih.progress with ⟨hp, rfl⟩ | ⟨⟨before, hp⟩, rfl⟩
        · simp only [hp, hafter]
        · simp only [hp, hafter]
    · rw [hattempt] at h
      exact nomatch (Prod.mk.inj h).1

/-- One run after another is a run. -/
theorem Deployment.Reaches.trans {start D D' : Deployment} {written written' : List String}
    {migrations migrations' : Nat} (h : Deployment.Reaches d start written migrations D)
    (h' : Deployment.Reaches d D written' migrations' D') :
    Deployment.Reaches d start (written ++ written') (migrations + migrations') D' := by
  induction h' with
  | refl =>
    rw [List.append_nil, Nat.add_zero]
    exact h
  | failed i faults schema position rows e _ hattempt ih =>
    rw [← Nat.add_assoc]
    exact .failed i faults schema position rows e ih hattempt
  | committed i faults schema position rows _ hattempt ih =>
    rw [← Nat.add_assoc, ← List.append_assoc]
    exact .committed i faults schema position rows ih hattempt

/-! ### Probing again -/

/-- Without faults, the lazy migration finds the column or adds it. -/
theorem migrateIfNeeded_run {s : Session} {checked : Bool} (hs : s.aborted = false)
    (hp : s.db.progress ≠ none) (hchecked : checked = true → s.db.HasPosition) :
    ∃ s', (migrateIfNeeded d (fun _ => none) checked).exec s = (.ok (), s') ∧
      s'.db.HasPosition := by
  cases checked with
  | true => exact ⟨s, rfl, hchecked rfl⟩
  | false =>
    obtain ⟨db, savepoint, aborted, statements⟩ := s
    obtain rfl : aborted = false := hs
    have hbegin : (savepointBegin d (fun _ => none)).exec ⟨db, savepoint, false, statements⟩
        = (.ok (), ⟨db, some db, false, statements + 1⟩) := rfl
    unfold migrateIfNeeded
    rw [if_neg Bool.false_ne_true, Proc.exec_bind_ok hbegin, Proc.exec_attempt_bind]
    cases hprogress : db.progress with
    | none => exact absurd hprogress hp
    | some progress =>
      cases progress with
      | migrated rows =>
        have hprobe : db.probePositionColumn = .ok ((), db) := by
          unfold Database.probePositionColumn
          rw [hprogress]
        rw [execute_run rfl hprobe]
        exact ⟨_, rfl, rows, hprogress⟩
      | unmigrated lastBlocks =>
        have hprobe : db.probePositionColumn = .error .undefinedColumn := by
          unfold Database.probePositionColumn
          rw [hprogress]
        let added := db.setProgress (.migrated fun t => (lastBlocks t).map (⟨·, .null⟩))
        have hadd : db.addPositionColumn = .ok ((), added) := by
          unfold Database.addPositionColumn
          rw [hprogress]
        rw [execute_run_error rfl hprobe]
        -- the failed probe may have aborted the transaction, which the rollback undoes
        have hrollback : (savepointRollback d (fun _ => none)).exec
            (Session.failed d ⟨db, some db, false, statements + 1⟩)
            = (.ok (), ⟨db, some db, false, statements + 3⟩) := rfl
        have hrelease : (savepointRelease d (fun _ => none)).exec
            ⟨db, some db, false, statements + 3⟩ = (.ok (), ⟨db, none, false, statements + 4⟩) :=
              rfl
        refine ⟨_, (Proc.exec_bind_ok hrollback).trans ((Proc.exec_bind_ok hrelease).trans
          ((Proc.exec_bind_ok (execute_run rfl hadd)).trans (execute_run rfl rfl))), _, rfl⟩

/-- Whatever the instances remember, the next write that no fault hits finds or adds the column,
unless the columns of its own table are refused. -/
theorem Lazily.prepares {D : Deployment} {written : List String} {migrations : Nat}
    (h : Lazily d lastBlocks written migrations D) (i : Nat) (schema : TableSchema) :
    D.db.Creates d schema ↔
      ∃ s, (do createTables d (fun _ => none) schema
               migrateIfNeeded d (fun _ => none) (D.checked i)).exec ⟨D.db, none, false, 0⟩
          = (.ok (), s) ∧ s.db.HasPosition := by
  obtain ⟨progress, hp⟩ : ∃ progress, D.db.progress = some progress := by
    rcases h.progress with ⟨hp, -⟩ | ⟨⟨rows, hp⟩, -⟩
    · exact ⟨_, hp⟩
    · exact ⟨_, hp⟩
  have hprogress : D.db.createProgressTable = .ok ((), D.db) := by
    unfold Database.createProgressTable
    rw [hp]
  constructor
  · intro hcreates
    obtain ⟨db, hevent⟩ := Database.createEventTable_of_creates hcreates
    have hp' : db.progress = D.db.progress := (Database.createEventTable_ok hevent).2.1
    have hcreate : (createTables d (fun _ => none) schema).exec ⟨D.db, none, false, 0⟩
        = (.ok (), ⟨db, none, false, 2⟩) :=
      (Proc.exec_bind_ok (execute_run rfl hprogress)).trans (execute_run rfl hevent)
    rw [Proc.exec_bind_ok hcreate]
    apply migrateIfNeeded_run rfl
    · rw [hp', hp]
      exact fun h => nomatch h
    · intro hchecked
      obtain ⟨rows, hrows⟩ := h.checked i hchecked
      exact ⟨rows, hp'.trans hrows⟩
  · rintro ⟨s, hexec, -⟩
    obtain ⟨⟨⟩, s₁, hcreate, -⟩ := Proc.exec_bind_eq_ok hexec
    obtain ⟨⟨⟩, s₂, hfirst, hsecond⟩ := Proc.exec_bind_eq_ok hcreate
    obtain ⟨db₁, h₁, rfl⟩ := execute_ok hfirst
    obtain ⟨db₂, h₂, rfl⟩ := execute_ok hsecond
    obtain ⟨-, rfl⟩ := Prod.mk.inj (Except.ok.inj (hprogress.symm.trans h₁))
    exact (Database.createEventTable_ok h₂).1

/-! ### The migration -/

/-- From an archive of before the migration, whatever instances write to it and however many of
their attempts fail: every table that no one has written to is read as before, also by a read that
others overtake; the migration happens at most once; an instance remembers it only when it is
committed; a failed attempt changes nothing, the flag included; and the next attempt without faults
migrates, unless the backend refuses the columns of its own table. -/
theorem migration_preserves_positions (d : Dialect) {lastBlocks : String → Option SqlValue}
    {start D : Deployment} {written : List String} {migrations : Nat}
    (hp : start.db.progress = some (.unmigrated lastBlocks)) (hcells : Blocks lastBlocks)
    (hnew : ∀ i, start.checked i = false)
    (hrun : Deployment.Reaches d start written migrations D) :
    (∀ t ∉ written, storedPosition BlockPosition D.db t = .ok (archived lastBlocks t)) ∧
      (∀ D' written' migrations', Deployment.Reaches d D written' migrations' D' →
        ∀ t ∉ written ++ written',
          storedPositionAcross BlockPosition D.db D'.db t = .ok (archived lastBlocks t)) ∧
      migrations ≤ 1 ∧
      (∀ i, D.checked i = true → D.db.HasPosition) ∧
      (∀ (P : Type) [Position P] [PositionEncoding P] i faults schema (position : P) rows e D',
        D.attempt d i faults schema position rows = (.error e, D') → D' = D) ∧
      ∀ i schema, D.db.Creates d schema ↔
        ∃ s, (do createTables d (fun _ => none) schema
                 migrateIfNeeded d (fun _ => none) (D.checked i)).exec
            ⟨D.db, none, false, 0⟩ = (.ok (), s) ∧ s.db.HasPosition := by
  have hstart := Lazily.start (d := d) hp hcells hnew
  have h := hstart.run hrun
  refine ⟨fun t ht => (h.represents t ht).read, ?_, ?_, h.checked, ?_, h.prepares⟩
  · intro D' written' migrations' hrun' t ht
    have h' := hstart.run (hrun.trans hrun')
    have ht₀ : t ∉ written := fun hmem => ht (List.mem_append_left _ hmem)
    exact (h.represents t ht₀).across (h'.represents t ht)
  · rcases h.progress with ⟨-, rfl⟩ | ⟨-, rfl⟩
    · exact Nat.zero_le 1
    · exact Nat.le_refl 1
  · intro P _ _ i faults schema position rows e D' hattempt
    rcases D.attempt_cases (d := d) i faults schema position rows with ⟨db, hok, -⟩ | ⟨e', herror⟩
    · rw [hattempt] at hok
      exact nomatch (Prod.mk.inj hok).1
    · rw [hattempt] at herror
      exact (Prod.mk.inj herror).2

/-- An old archive, and new store instances. -/
def oldDeployment : Deployment := ⟨oldArchive, fun _ => false⟩

/-- The old archive after a write to another table. -/
def migratedArchive : Deployment :=
  (oldDeployment.attempt .integersOnly 0 (fun _ => none) ⟨"logs", []⟩ (⟨3⟩ : BlockPosition) []).2

/-- The archive keeps its block when the write to another table migrates it. -/
theorem old_archive_preserved :
    storedPosition BlockPosition migratedArchive.db "transfers" = .ok (some ⟨9⟩) ∧
      migratedArchive.db.HasPosition := by
  have hp : oldDeployment.db.progress
      = some (.unmigrated fun t => if t = "transfers" then some (.integer 9) else none) := rfl
  have hcells : Blocks fun t => if t = "transfers" then some (.integer 9) else none := by
    intro t cell hcell
    obtain ⟨-, hcell⟩ := Option.ite_none_right_eq_some.mp hcell
    exact ⟨9, by decide, (Option.some.inj hcell).symm⟩
  have hnew : ∀ i, oldDeployment.checked i = false := fun _ => rfl
  have hok : (oldDeployment.attempt .integersOnly 0 (fun _ => none) ⟨"logs", []⟩
      (⟨3⟩ : BlockPosition) []).1 = .ok () := rfl
  have hattempt : oldDeployment.attempt .integersOnly 0 (fun _ => none) ⟨"logs", []⟩
      (⟨3⟩ : BlockPosition) [] = (.ok (), migratedArchive) := by
    rw [← hok, migratedArchive]
  obtain ⟨m, hrun⟩ : ∃ m, Deployment.Reaches .integersOnly oldDeployment ["logs"] m
      migratedArchive :=
    ⟨_, .committed 0 (fun _ => none) ⟨"logs", []⟩ (⟨3⟩ : BlockPosition) [] .refl hattempt⟩
  have h := migration_preserves_positions .integersOnly hp hcells hnew hrun
  have hflag : migratedArchive.checked 0 = true := rfl
  exact ⟨h.1 "transfers" (by decide), h.2.2.2.1 0 hflag⟩

end ArtemisLight
