import Mathlib.Data.List.TakeWhile
import ArtemisLight.Persistence.Scripted
import ArtemisLight.Persistence.Sql.Equiv.StoredPosition
import ArtemisLight.Persistence.Writer.Equiv.Rising
import ArtemisLight.Serving.Paging

/-!
## Paging neither skips nor repeats

The writer commits its groups in the order of their sort keys, so what it adds to a table comes
after all that is there, in the order that the pages are cut from.
-/

namespace ArtemisLight

variable {σ ρ P E : Type} [Position P] [PositionEncoding P] {d : Dialect} {table : String}

/-! ### The stored position -/

omit [Position P] in
/-- A table without progress has no stored position. -/
theorem storedPosition_of_none {db : Database} (h : db.progressRows d table = none) :
    storedPosition P db table = .ok none := by
  unfold Database.progressRows at h
  unfold storedPosition storedPositionAcross resumeFromLastBlock Database.selectPosition
    Database.selectLastBlock
  rcases hp : db.progress with _ | lastBlocks | rows
  · rfl
  · rw [hp] at h
    have hnone : lastBlocks table = none := Option.map_eq_none_iff.mp h
    simp only [hnone]
  · rw [hp] at h
    have hnone : rows table = none := h
    simp only [hnone, Option.map_none]

omit [Position P] in
/-- A committed progress row is read back. -/
theorem storedPosition_of_some {db : Database} {rows : String → Option ProgressRow}
    {cell : SqlValue} {text : String} {w : P} (hp : db.progress = some (.migrated rows))
    (hrow : rows table = some ⟨cell, .text text⟩)
    (hw : PositionEncoding.decode text = Except.ok w) :
    storedPosition P db table = .ok (some w) := by
  unfold storedPosition storedPositionAcross Database.selectPosition
  rw [hp]
  simp only [hrow, Option.map_some, textCell]
  rw [hw]
  rfl

/-! ### What the steps keep -/

/-- The table has been filled in the order of the sort keys up to the stored position `w`, and goes
on from there. -/
structure Indexer.Sound (d : Dialect) (table : String) (w : Option P) (i : Indexer P E) : Prop where
  position : storedPosition P i.db table = .ok w
  /-- A write folds onto the same position. -/
  locked : decodePosition P ((i.db.progressRows d table).map ProgressRow.position) = .ok w
  le : level w ≤ i64Max
  sorted : (i.db.rowsOf table).Pairwise fun r r' => r.blockNumber ≤ r'.blockNumber
  bounds : ∀ r ∈ i.db.rowsOf table, 0 ≤ r.blockNumber ∧ r.blockNumber ≤ level w
  rowids : (i.db.rowsOf table).length ≤ i64Max
  ahead : ∃ hi, Rising (level w) hi (writes i.ahead)

/-- The table stays, with its columns, and rows are only added at its end. -/
def Database.Grows (table : String) (db after : Database) : Prop :=
  ∀ t, db.tables table = some t →
    ∃ t', after.tables table = some t' ∧ t'.columns = t.columns ∧ t.rows <+: t'.rows

theorem Database.Grows.refl (db : Database) : db.Grows table db :=
  fun t ht => ⟨t, ht, rfl, List.prefix_refl _⟩

theorem Database.Grows.trans {db mid after : Database} (h : db.Grows table mid)
    (h' : mid.Grows table after) : db.Grows table after := by
  intro t ht
  obtain ⟨t', ht', hcols, hrows⟩ := h t ht
  obtain ⟨t'', ht'', hcols', hrows'⟩ := h' t' ht'
  exact ⟨t'', ht'', hcols'.trans hcols, hrows.trans hrows'⟩

/-- The rows of a table after a write. -/
theorem Written.rowsOf {schema : TableSchema} {position : P} {rows : List Row} {db after : Database}
    (h : Written d schema position rows db after) :
    after.rowsOf schema.table
      = db.rowsOf schema.table ++ rows.map (schema.stored (Position.sortKey position)) := by
  unfold Database.rowsOf
  rw [h.tables, Function.update_self]
  show (db.eventTable schema).rows ++ _ = _
  unfold Database.eventTable
  cases db.tables schema.table <;> rfl

theorem Written.grows {schema : TableSchema} {position : P} {rows : List Row} {db after : Database}
    (h : Written d schema position rows db after) : db.Grows schema.table after := by
  intro t ht
  refine ⟨_, by rw [h.tables, Function.update_self], ?_, ?_⟩
  · show (db.eventTable schema).columns = t.columns
    rw [Database.eventTable, ht]
    rfl
  · show t.rows <+: (db.eventTable schema).rows ++ _
    rw [Database.eventTable, ht]
    exact List.prefix_append _ _

section Steps

variable [Store σ P] [RecordOps ρ E]

theorem Indexer.Step.grows {i i' : Indexer P E} (h : Indexer.Step σ ρ d table i i') :
    i.db.Grows table i'.db := by
  cases h with
  | wrote htable hwritten hrowids =>
    subst htable
    exact hwritten.grows
  | passed hx => exact .refl _
  | elsewhere h =>
    intro t ht
    exact ⟨t, by rw [h.tables, ht], rfl, List.prefix_refl _⟩
  | subscribe => exact .refl _

theorem Indexer.Steps.grows {i i' : Indexer P E} (h : Indexer.Steps σ ρ d table i i') :
    i.db.Grows table i'.db := by
  induction h with
  | refl => exact .refl _
  | tail _ hstep ih => exact ih.trans hstep.grows

variable [ResumablePosition P] [LawfulEncoding P]

omit [Store σ P] [RecordOps ρ E] in
/-- The next write of the run adds its rows behind the others. -/
theorem Indexer.Sound.wrote {schema : TableSchema} {w : Option P} {db after : Database}
    {writer : Writer} {position : P} {rows : List Row} {ahead : List (Effect P E)}
    (h : Indexer.Sound d schema.table w ⟨db, .wrote writer position rows :: ahead⟩)
    (hwritten : Written d schema position rows db after)
    (hrowids : (after.rowsOf schema.table).length ≤ i64Max) :
    Indexer.Sound d schema.table (some (Position.advance w position)) ⟨after, ahead⟩ := by
  obtain ⟨hi, hrising⟩ := h.ahead
  have hrising : Rising (level w) hi ((position, rows) :: writes ahead) := hrising
  have hle : level w ≤ Position.sortKey position := hrising.above _ List.mem_cons_self
  obtain ⟨prev, hprev, hkey, hprogress⟩ := hwritten.progress
  -- what the write has read is what the indexer knows to be stored
  obtain rfl : w = prev := by
    have := h.locked.symm.trans hprev
    exact Except.ok.inj this
  have hlevel : level (some (Position.advance w position)) = Position.sortKey position := by
    rw [level_advance, Nat.max_eq_right hle]
  have hdecode : PositionEncoding.decode (PositionEncoding.encode (Position.advance w position))
      = Except.ok (Position.advance w position) :=
    LawfulEncoding.decode_encode _ (Nat.le_trans hkey (by decide))
  refine ⟨?_, ?_, hkey, ?_, ?_, hrowids, ?_⟩
  · exact storedPosition_of_some hprogress (Function.update_self ..) hdecode
  · rw [Database.progressRows_of_migrated hprogress, Function.update_self]
    show Except.mapError WriteError.message (some <$> PositionEncoding.decode _) = _
    rw [hdecode]
    rfl
  · -- the new rows are at one key, which no stored row exceeds
    show (after.rowsOf schema.table).Pairwise _
    rw [hwritten.rowsOf, List.pairwise_append]
    refine ⟨h.sorted, List.pairwise_of_forall_mem_list ?_, ?_⟩
    · intro r hr r' hr'
      obtain ⟨row, -, rfl⟩ := List.mem_map.mp hr
      obtain ⟨row', -, rfl⟩ := List.mem_map.mp hr'
      exact Int.le_refl _
    · intro r hr r' hr'
      obtain ⟨row', -, rfl⟩ := List.mem_map.mp hr'
      have := (h.bounds r hr).2
      show r.blockNumber ≤ (Position.sortKey position : Int)
      omega
  · intro r hr
    have hr' : r ∈ after.rowsOf schema.table := hr
    rw [hwritten.rowsOf, List.mem_append] at hr'
    rw [hlevel]
    rcases hr' with hr' | hr'
    · have := h.bounds r hr'
      exact ⟨this.1, by omega⟩
    · obtain ⟨row, -, rfl⟩ := List.mem_map.mp hr'
      exact ⟨Int.natCast_nonneg _, Int.le_refl _⟩
  · refine ⟨max hi (Position.sortKey position), ?_⟩
    rw [hlevel]
    obtain ⟨hhead, htail⟩ := List.pairwise_cons.mp hrising.sorted
    exact ⟨Nat.le_max_right _ _, htail, hhead, fun g hg => Nat.le_trans
      (hrising.below g (List.mem_cons_of_mem _ hg)) (Nat.le_max_left _ _)⟩

/-- One step of the writer. -/
theorem Indexer.Sound.step {w : Option P} {i i' : Indexer P E} (h : i.Sound d table w)
    (hstep : Indexer.Step σ ρ d table i i') : ∃ w', i'.Sound d table w' := by
  cases hstep with
  | wrote htable hwritten hrowids =>
    subst htable
    exact ⟨_, h.wrote hwritten hrowids⟩
  | @passed db x ahead hx =>
    obtain ⟨hi, hrising⟩ := h.ahead
    have hwrites : writes (x :: ahead) = writes ahead := by
      unfold writes
      rw [List.filterMap_cons_none hx]
    exact ⟨w, { h with ahead := ⟨hi, by rw [← hwrites]; exact hrising⟩ }⟩
  | @elsewhere db after ahead hspares =>
    -- a write to another table moves neither the rows nor the position of this one
    have hrows : after.rowsOf table = db.rowsOf table := by
      unfold Database.rowsOf
      rw [hspares.tables]
    refine ⟨w, ?_, ?_, h.le, ?_, ?_, ?_, h.ahead⟩
    · exact hspares.position.trans h.position
    · rw [hspares.progress]
      exact h.locked
    · rw [hrows]
      exact h.sorted
    · rw [hrows]
      exact h.bounds
    · rw [hrows]
      exact h.rowids
  | @subscribe db ahead seed hseed p tip backfill live store record hback hmax =>
    obtain rfl : w = seed := Except.ok.inj (h.position.symm.trans hseed)
    have hle : level w ≤ u64Max := Nat.le_trans h.le (by decide)
    exact ⟨w, { h with ahead := p.writes_rising hle hback hmax live store record }⟩

theorem Indexer.Sound.steps {w : Option P} {i i' : Indexer P E} (h : i.Sound d table w)
    (hsteps : Indexer.Steps σ ρ d table i i') : ∃ w', i'.Sound d table w' := by
  induction hsteps with
  | refl => exact ⟨w, h⟩
  | tail _ hstep ih =>
    obtain ⟨w', h'⟩ := ih
    exact h'.step hstep

/-- A table that one writer pipeline has filled is in order. -/
theorem Indexer.Filled.sound {i : Indexer P E} (h : i.Filled σ ρ d table) :
    ∃ w : Option P, i.Sound d table w := by
  obtain ⟨db, htables, hprogress, hsteps⟩ := h
  have hrows : db.rowsOf table = [] := by
    unfold Database.rowsOf
    rw [htables]
    rfl
  have hstart : Indexer.Sound d table (none : Option P) (⟨db, []⟩ : Indexer P E) := by
    refine ⟨storedPosition_of_none hprogress, ?_, Nat.zero_le _, ?_, ?_, ?_, 0,
      .nil (Nat.le_refl _)⟩
    · rw [hprogress]
      rfl
    · show (db.rowsOf table).Pairwise _
      rw [hrows]
      exact .nil
    · intro r hr
      have hr' : r ∈ db.rowsOf table := hr
      rw [hrows] at hr'
      exact absurd hr' List.not_mem_nil
    · show (db.rowsOf table).length ≤ _
      rw [hrows]
      exact Nat.zero_le _
  exact hstart.steps hsteps

end Steps

/-! ### Query parameters -/

/-- Nothing to trim. -/
theorem trim_eq_self {s : String} (h : ∀ c ∈ s.toList, isWhitespace c = false) : trim s = s := by
  have hfirst : s.toList.dropWhile isWhitespace = s.toList :=
    List.dropWhile_eq_self_iff.mpr fun hpos => by
      rw [Bool.not_eq_true]
      exact h _ (List.getElem_mem hpos)
  have hlast : s.toList.reverse.dropWhile isWhitespace = s.toList.reverse :=
    List.dropWhile_eq_self_iff.mpr fun hpos => by
      rw [Bool.not_eq_true]
      exact h _ (List.mem_reverse.mp (List.getElem_mem hpos))
  unfold trim
  rw [hfirst, hlast, List.reverse_reverse, String.ofList_toList]

/-- A decimal digit is no whitespace. -/
theorem isWhitespace_of_isDigit {c : Char} (h : c.isDigit = true) : isWhitespace c = false := by
  have hrange : 48 ≤ c.toNat ∧ c.toNat ≤ 57 := by
    simpa [Char.isDigit, UInt32.le_iff_toNat_le] using h
  obtain ⟨hlo, hhi⟩ := hrange
  unfold isWhitespace
  simp only [Bool.or_eq_false_iff, Bool.and_eq_false_iff, decide_eq_false_iff_not]
  omega

/-- A number in decimal is read back, if it is a `u64`. -/
theorem parseParam_toString (name : String) {n : Nat} (h : n ≤ u64Max) (default : Nat) :
    parseParam name (some (toString n)) default = .ok n := by
  have hdigits : ∀ c ∈ (toString n).toList, isWhitespace c = false := by
    intro c hc
    have hlist : (toString n).toList = Nat.toDigits 10 n := Nat.toList_repr
    rw [hlist] at hc
    exact isWhitespace_of_isDigit (Nat.isDigit_of_mem_toDigits (by decide) (by decide) hc)
  have hparse : parseU64 (trim (toString n)) = some n := by
    rw [trim_eq_self hdigits, BlockPosition.parseU64_toString, if_pos h]
  simp only [parseParam, hparse]

/-- What the resolved bounds are. -/
theorem RowsQueryParams.resolve_ok {params : RowsQueryParams} {defaultLimit maxLimit : Nat}
    {bounds : Bounds} (h : params.resolve defaultLimit maxLimit = .ok bounds) :
    ∃ fromBlock toBlock limit offset,
      parseParam "from_block" params.fromBlock 0 = .ok fromBlock ∧
      parseParam "to_block" params.toBlock i64Max = .ok toBlock ∧
      parseParam "limit" params.limit defaultLimit = .ok limit ∧
      parseParam "offset" params.offset 0 = .ok offset ∧
      bounds = ⟨min fromBlock i64Max, min toBlock i64Max,
        clampU64 limit 1 (clampU64 maxLimit 1 i64Max), min offset i64Max⟩ := by
  unfold RowsQueryParams.resolve at h
  rcases hfrom : parseParam "from_block" params.fromBlock 0 with e | fromBlock
  · rw [hfrom] at h
    exact nomatch h
  rcases hto : parseParam "to_block" params.toBlock i64Max with e | toBlock
  · rw [hfrom, hto] at h
    exact nomatch h
  rcases hlimit : parseParam "limit" params.limit defaultLimit with e | limit
  · rw [hfrom, hto, hlimit] at h
    exact nomatch h
  rcases hoffset : parseParam "offset" params.offset 0 with e | offset
  · rw [hfrom, hto, hlimit, hoffset] at h
    exact nomatch h
  rw [hfrom, hto, hlimit, hoffset] at h
  exact ⟨fromBlock, toBlock, limit, offset, rfl, rfl, rfl, rfl, (Except.ok.inj h).symm⟩

theorem clampU64_mem {lo hi : Nat} (n : Nat) (h : lo ≤ hi) :
    lo ≤ clampU64 n lo hi ∧ clampU64 n lo hi ≤ hi := by
  unfold clampU64
  split
  · omega
  · split <;> omega

/-- The limit is at least one row, and a signed integer. -/
theorem clampU64_limit (limit maxLimit : Nat) :
    1 ≤ clampU64 limit 1 (clampU64 maxLimit 1 i64Max) ∧
      clampU64 limit 1 (clampU64 maxLimit 1 i64Max) ≤ i64Max := by
  have hmax : 1 ≤ i64Max := by decide
  have hinner := clampU64_mem maxLimit hmax
  have houter := clampU64_mem limit hinner.1
  omega

/-! ### One page -/

/-- The rows of a block range, in insertion order. -/
def selected (fromBlock toBlock : Nat) (rows : List StoredRow) : List StoredRow :=
  rows.filter fun r =>
    decide ((fromBlock : Int) ≤ r.blockNumber) && decide (r.blockNumber ≤ (toBlock : Int))

section Rows

variable {rows rows' : List StoredRow} (fromBlock toBlock : Nat)

/-- The range query returns a page of the listing. -/
theorem rangeQuery_listing {db : Database} {table : String} {t : EventTable}
    (ht : db.tables table = some t) (limit offset : Nat) :
    db.rangeQuery table fromBlock toBlock limit offset
      = .ok (page limit offset (listing fromBlock toBlock t.rows)) := by
  have hlimit : ¬ (limit : Int) < 0 := by omega
  unfold Database.rangeQuery
  simp only [ht]
  show Except.ok
    (Database.limited limit ((listing fromBlock toBlock t.rows).drop (offset : Int).toNat)) = _
  rw [Int.toNat_natCast, Database.limited, if_neg hlimit, Int.toNat_natCast]
  rfl

theorem selected_isPrefix (h : rows <+: rows') :
    selected fromBlock toBlock rows <+: selected fromBlock toBlock rows' := h.filter _

variable (hsorted : rows.Pairwise fun r r' => r.blockNumber ≤ r'.blockNumber)
include hsorted

/-- Rows that are inserted in the order of their blocks are listed in that order. -/
theorem listing_eq_selected : listing fromBlock toBlock rows = selected fromBlock toBlock rows :=
  (hsorted.filter _).insertionSort_eq

theorem rangeQuery_eq {db : Database} {table : String} (t : EventTable)
    (ht : db.tables table = some t) (hrows : t.rows = rows) (limit offset : Nat) :
    db.rangeQuery table fromBlock toBlock limit offset
      = .ok (page limit offset (selected fromBlock toBlock rows)) := by
  rw [rangeQuery_listing fromBlock toBlock ht, hrows,
    listing_eq_selected fromBlock toBlock hsorted]

end Rows

theorem asI64_of_le {n : Nat} (h : n ≤ i64Max) : asI64 n = n := if_pos h

/-- What a request is answered with. -/
theorem queryRowsHandler_ok [Cell StoredRow] {parse : String → Option Value} {state : AppState}
    {db : Database} {table : String} {params : RowsQueryParams} {response : RowsResponse}
    (hok : queryRowsHandler parse state db table params = .ok response)
    (hsorted : (db.rowsOf table).Pairwise fun r r' => r.blockNumber ≤ r'.blockNumber) :
    ∃ t bounds, db.tables table = some t ∧
      params.resolve state.defaultLimit state.maxLimit = .ok bounds ∧
      response.limit = bounds.limit ∧
      (page bounds.limit bounds.offset
        (selected bounds.fromBlock bounds.toBlock (db.rowsOf table))).mapM
          (fun row => rowToJson parse row (db.tableColumns table)) = .ok response.rows := by
  unfold queryRowsHandler at hok
  split at hok
  · rename_i hexists
    rcases hbounds : params.resolve state.defaultLimit state.maxLimit with e | bounds
    · rw [hbounds] at hok
      exact nomatch hok
    rw [hbounds] at hok
    obtain ⟨t, ht⟩ : ∃ t, db.tables table = some t := by
      unfold Database.tableExists at hexists
      simp only [Bool.and_eq_true] at hexists
      exact Option.isSome_iff_exists.mp hexists.1.1
    have hrows : db.rowsOf table = t.rows := by
      unfold Database.rowsOf
      rw [ht]
      rfl
    obtain ⟨fromBlock, toBlock, limit, offset, -, -, -, -, hb⟩ := RowsQueryParams.resolve_ok hbounds
    have hlimit := (clampU64_limit limit state.maxLimit).2
    have hquery : queryRows parse db table bounds
        = (page bounds.limit bounds.offset
          (selected bounds.fromBlock bounds.toBlock (db.rowsOf table))).mapM
            (fun row => rowToJson parse row (db.tableColumns table)) := by
      unfold queryRows
      subst hb
      -- the clamped bounds fit into what the query binds
      rw [asI64_of_le (Nat.min_le_right _ _), asI64_of_le (Nat.min_le_right _ _),
        asI64_of_le hlimit,
        asI64_of_le (Nat.min_le_right _ _), rangeQuery_eq _ _ hsorted t ht hrows.symm]
      rfl
    dsimp only at hok
    rw [hquery] at hok
    split at hok
    · exact nomatch hok
    · rename_i rows hpage
      obtain rfl := Except.ok.inj hok
      exact ⟨t, bounds, ht, rfl, rfl, hpage⟩
  · exact nomatch hok

/-! ### The whole walk -/

section Grows

variable {db after : Database} {t : EventTable}

theorem Database.rowsOf_eq (ht : db.tables table = some t) : db.rowsOf table = t.rows := by
  unfold Database.rowsOf
  rw [ht]
  rfl

/-- The columns of a table do not change. -/
theorem Database.Grows.tableColumns (h : db.Grows table after) (ht : db.tables table = some t) :
    db.tableColumns table = after.tableColumns table := by
  obtain ⟨t', ht', hcols, -⟩ := h t ht
  unfold Database.tableColumns
  rw [ht, ht']
  simp only [hcols]

/-- What is added to a table comes after what is selected from it. -/
theorem Database.Grows.selected_isPrefix (h : db.Grows table after) (fromBlock toBlock : Nat)
    (ht : db.tables table = some t) :
    selected fromBlock toBlock (db.rowsOf table) <+: selected fromBlock toBlock
      (after.rowsOf table) := by
  obtain ⟨t', ht', -, hrows⟩ := h t ht
  rw [Database.rowsOf_eq ht, Database.rowsOf_eq ht']
  exact ArtemisLight.selected_isPrefix fromBlock toBlock hrows

end Grows

theorem length_of_mapM {α β ε : Type} {f : α → Except ε β} {l : List α} {l' : List β}
    (h : l.mapM f = .ok l') : l'.length = l.length := by
  induction l generalizing l' with
  | nil =>
    obtain rfl := Except.ok.inj h
    rfl
  | cons a l ih =>
    rw [List.mapM_cons] at h
    rcases ha : f a with e | b
    · rw [ha] at h
      exact nomatch h
    rcases hl : l.mapM f with e | bs
    · rw [ha, hl] at h
      exact nomatch h
    rw [ha, hl] at h
    obtain rfl := Except.ok.inj h
    simp [ih hl]

theorem mapM_append_ok {α β ε : Type} {f : α → Except ε β} {l m : List α} {l' m' : List β}
    (hl : l.mapM f = .ok l') (hm : m.mapM f = .ok m') : (l ++ m).mapM f = .ok (l' ++ m') := by
  rw [List.mapM_append, hl, hm]
  rfl

section Clamped

variable {rows : List StoredRow} {fromBlock toBlock : Nat}

/-- Clamping the bounds to `i64::MAX` selects the same rows, unless a range that starts above it
gets a row at it. -/
theorem selected_clamped (hle : ∀ r ∈ rows, r.blockNumber ≤ i64Max)
    (hnot : ¬ (i64Max < fromBlock ∧ i64Max ≤ toBlock ∧ ∃ r ∈ rows, r.blockNumber = i64Max)) :
    selected (min fromBlock i64Max) (min toBlock i64Max) rows
      = selected fromBlock toBlock rows := by
  apply List.filter_congr
  intro r hr
  have hblock := hle r hr
  have hnot' : ¬ (i64Max < fromBlock ∧ i64Max ≤ toBlock ∧ r.blockNumber = i64Max) :=
    fun h => hnot ⟨h.1, h.2.1, r, hr, h.2.2⟩
  rw [Bool.eq_iff_iff]
  simp only [Bool.and_eq_true, decide_eq_true_eq]
  omega

/-- Such a range selects nothing itself. -/
theorem selected_eq_nil (hle : ∀ r ∈ rows, r.blockNumber ≤ i64Max) (hfrom : i64Max < fromBlock) :
    selected fromBlock toBlock rows = [] := by
  apply List.filter_eq_nil_iff.mpr
  intro r hr
  have hblock := hle r hr
  simp only [Bool.and_eq_true, decide_eq_true_eq]
  omega

end Clamped

section Walk

variable [ResumablePosition P] [LawfulEncoding P] [Store σ P] [RecordOps ρ E] [Cell StoredRow]
  {parse : String → Option Value} {state : AppState} {params : RowsQueryParams}

omit [ResumablePosition P] [LawfulEncoding P] in
/-- A request of the walk is given its page of the resolved range, with the limit it is cut to. -/
theorem Indexer.Sound.answered {i : Indexer P E} {w : Option P} (hsound : i.Sound d table w)
    {offset : Nat} {response : RowsResponse}
    (hok : queryRowsHandler parse state i.db table { params with offset := some (toString offset) }
      = .ok response) {fromBlock toBlock : Nat}
    (hfrom : parseParam "from_block" params.fromBlock 0 = .ok fromBlock)
    (hto : parseParam "to_block" params.toBlock i64Max = .ok toBlock)
    (hoffset : offset ≤ (selected (min fromBlock i64Max) (min toBlock i64Max)
      (i.db.rowsOf table)).length) :
    (∃ t, i.db.tables table = some t) ∧
      (page response.limit offset (selected (min fromBlock i64Max) (min toBlock i64Max)
        (i.db.rowsOf table))).mapM (fun row => rowToJson parse row (i.db.tableColumns table))
        = .ok response.rows := by
  obtain ⟨t, bounds, ht, hbounds, hlimit, hpage⟩ := queryRowsHandler_ok hok hsound.sorted
  obtain ⟨fromBlock', toBlock', limit, offset', hfrom', hto', -, hoffset', rfl⟩ :=
    RowsQueryParams.resolve_ok hbounds
  obtain rfl := Except.ok.inj (hfrom.symm.trans hfrom')
  obtain rfl := Except.ok.inj (hto.symm.trans hto')
  have hfit : offset ≤ i64Max := Nat.le_trans hoffset
    (Nat.le_trans (List.length_filter_le _ _) hsound.rowids)
  have hread : parseParam "offset" (some (toString offset)) 0 = .ok offset :=
    parseParam_toString _ (Nat.le_trans hfit (by decide)) _
  obtain rfl : offset = offset' := Except.ok.inj (hread.symm.trans hoffset')
  rw [Nat.min_eq_left hfit] at hpage
  rw [hlimit]
  exact ⟨⟨t, ht⟩, hpage⟩

/-- From any offset that the table reaches, a walk is given what the last database it read has from
there on in the resolved range. -/
theorem Walk.received {i last : Indexer P E} {offset : Nat} {rows : List (List (String × Value))}
    (hwalk : Walk σ ρ parse d state table params i offset rows last) {w : Option P}
    (hsound : i.Sound d table w) {fromBlock toBlock : Nat}
    (hfrom : parseParam "from_block" params.fromBlock 0 = .ok fromBlock)
    (hto : parseParam "to_block" params.toBlock i64Max = .ok toBlock)
    (hoffset : offset ≤ (selected (min fromBlock i64Max) (min toBlock i64Max)
      (i.db.rowsOf table)).length) :
    (∃ w' : Option P, last.Sound d table w') ∧ i.db.Grows table last.db ∧
      ((selected (min fromBlock i64Max) (min toBlock i64Max) (last.db.rowsOf table)).drop
        offset).mapM
        (fun row => rowToJson parse row (last.db.tableColumns table)) = .ok rows := by
  induction hwalk generalizing w with
  | @short i offset response hok hshort =>
    obtain ⟨-, hpage⟩ := hsound.answered hok hfrom hto hoffset
    have hshort' : (page response.limit offset (selected (min fromBlock i64Max) (min toBlock i64Max)
        (i.db.rowsOf table))).length < response.limit := by
      rw [← length_of_mapM hpage]
      exact hshort
    rw [page_eq_drop hshort'] at hpage
    exact ⟨⟨w, hsound⟩, .refl _, hpage⟩
  | @full i i' last offset response rows hok hfull hsteps hwalk ih =>
    obtain ⟨⟨t, ht⟩, hpage⟩ := hsound.answered hok hfrom hto hoffset
    obtain ⟨w', hsound'⟩ := hsound.steps hsteps
    have hfull' : ¬ (page response.limit offset (selected (min fromBlock i64Max)
        (min toBlock i64Max) (i.db.rowsOf table))).length < response.limit := by
      rw [← length_of_mapM hpage]
      exact hfull
    have hprefix := hsteps.grows.selected_isPrefix (min fromBlock i64Max) (min toBlock i64Max) ht
    -- the rows of the page are still there, so the next offset is within the table
    have hoffset' : offset + response.limit ≤ (selected (min fromBlock i64Max) (min toBlock i64Max)
        (i'.db.rowsOf table)).length := by
      have hlen : offset + response.limit ≤ (selected (min fromBlock i64Max) (min toBlock i64Max)
          (i.db.rowsOf table)).length := by
        unfold page at hfull'
        rw [List.length_take, List.length_drop] at hfull'
        omega
      exact Nat.le_trans hlen hprefix.length_le
    obtain ⟨hlast, hgrows, hrest⟩ := ih hsound' hoffset'
    have hall : i.db.Grows table last.db := hsteps.grows.trans hgrows
    refine ⟨hlast, hall, ?_⟩
    rw [hall.tableColumns ht] at hpage
    rw [← page_append_drop hfull' (hall.selected_isPrefix _ _ ht)]
    exact mapM_append_ok hpage hrest

/-- A client that pages through a table while the writer goes on receives exactly the rows that the
last database it read has in the requested range, each once and in the order of block and insertion;
unless the range starts above `i64::MAX`, reaches it, and that database has a row there. -/
theorem paging_exact_iff {i last : Indexer P E} (hfilled : i.Filled σ ρ d table)
    {rows : List (List (String × Value))}
    (hwalk : Walk σ ρ parse d state table params i 0 rows last)
    {fromBlock toBlock : Nat} (hfrom : parseParam "from_block" params.fromBlock 0 = .ok fromBlock)
    (hto : parseParam "to_block" params.toBlock i64Max = .ok toBlock) :
    (listing fromBlock toBlock (last.db.rowsOf table)).mapM
        (fun row => rowToJson parse row (last.db.tableColumns table)) = .ok rows ↔
      ¬ (i64Max < fromBlock ∧ i64Max ≤ toBlock ∧
        ∃ r ∈ last.db.rowsOf table, r.blockNumber = i64Max) := by
  obtain ⟨w, hsound⟩ := hfilled.sound
  obtain ⟨⟨w', hlast⟩, -, hrows⟩ := hwalk.received hsound hfrom hto (Nat.zero_le _)
  rw [List.drop_zero] at hrows
  have hle : ∀ r ∈ last.db.rowsOf table, r.blockNumber ≤ i64Max := by
    intro r hr
    have := (hlast.bounds r hr).2
    have := hlast.le
    omega
  rw [listing_eq_selected fromBlock toBlock hlast.sorted]
  constructor
  · rintro hlisting ⟨hlow, hhigh, r, hr, hblock⟩
    -- nothing was asked for, and the row at `i64::MAX` is received
    rw [selected_eq_nil hle hlow] at hlisting
    have hmem :
      r ∈ selected (min fromBlock i64Max) (min toBlock i64Max) (last.db.rowsOf table) := by
      refine List.mem_filter.mpr ⟨hr, ?_⟩
      simp only [Bool.and_eq_true, decide_eq_true_eq]
      omega
    have hlen := (length_of_mapM hrows).symm.trans (length_of_mapM hlisting)
    rw [List.length_eq_zero_iff.mp hlen] at hmem
    exact List.not_mem_nil hmem
  · intro hnot
    rw [← selected_clamped hle hnot]
    exact hrows

end Walk

/-! ### A table with a row at the highest block -/

/-- A cell by name, if its value has the type that is asked for. -/
def typedCell {α : Type} (r : StoredRow) (name : String) (read : SqlValue → Option α) :
    Except Error (Option α) :=
  let cell := if name = blockNumberColumn then some (.integer r.blockNumber)
    else (r.cells.find? fun c => c.1 = name).map Prod.snd
  match cell with
  | none => .error "no column found for name"
  | some .null => .ok none
  | some cell =>
    match read cell with
    | some a => .ok (some a)
    | none => .error "mismatched types"

instance : Cell StoredRow where
  tryI64 r name := typedCell r name fun | .integer i => some i | _ => none
  tryF64 r name := typedCell r name fun | .real bits => some bits | _ => none
  tryBytes r name := typedCell r name fun | .blob bytes => some bytes | _ => none
  tryString r name := typedCell r name fun | .text s => some s | _ => none

/-- The payload of a value set as nested JSON. -/
def ValueSet.parse (s : String) : Option Value :=
  match (SerdeJson.fromStr s : Except Error ValueSet) with
  | .ok e => some (.object [("value", .string (ValueSet.hex e.value))])
  | .error _ => none

/-- A bounded subscribe up to the highest block that can be stored. -/
def topWrapper : Persisted Record := scriptedWrapper 0 1 Nat.one_pos (some i64Max)

def topBackfill : List (BlockPosition × ValueSet) := [(⟨5⟩, ⟨1⟩), (⟨i64Max⟩, ⟨2⟩)]

def topEffects : List (Effect BlockPosition ValueSet) :=
  (persistAndEmit topBackfill [] (MemoryStore.new [] : MemoryStore BlockPosition)
    (Record.inferred ValueSet.table) topWrapper.confirmationDepth (topWrapper.finalCut i64Max)
    none).io.effects

def topSchema : TableSchema := ⟨ValueSet.table, [⟨"value", .text⟩, ⟨payloadColumn, .text⟩]⟩

def topRow (n : Nat) : Row :=
  ⟨[.text (ValueSet.hex n), .text ("\x7b\"value\":\"" ++ ValueSet.hex n ++ "\"\x7d")]⟩

/-- The database before the backfill, and after each of its two commits. -/
def topEmpty : Database := ⟨none, fun _ => none⟩

def topOnce : Database :=
    (SqlStore.writeOnce .integersOnly (fun _ => none) ⟨topEmpty, false⟩ topSchema
  (⟨5⟩ : BlockPosition) [topRow 1]).2.db

def topTwice : Database :=
    (SqlStore.writeOnce .integersOnly (fun _ => none) ⟨topOnce, true⟩ topSchema
  (⟨i64Max⟩ : BlockPosition) [topRow 2]).2.db

theorem topOnce_written : Written .integersOnly topSchema (⟨5⟩ : BlockPosition) [topRow 1] topEmpty
    topOnce := by
  have h : SqlStore.writeOnce .integersOnly (fun _ => none) ⟨topEmpty, false⟩ topSchema
      (⟨5⟩ : BlockPosition) [topRow 1] = (.ok (), ⟨topOnce, true⟩) := rfl
  exact writeOnce_written h

theorem topTwice_written : Written .integersOnly topSchema (⟨i64Max⟩ : BlockPosition) [topRow 2]
    topOnce topTwice := by
  have h : SqlStore.writeOnce .integersOnly (fun _ => none) ⟨topOnce, true⟩ topSchema
      (⟨i64Max⟩ : BlockPosition) [topRow 2] = (.ok (), ⟨topTwice, true⟩) := rfl
  exact writeOnce_written h

theorem topEffects_eq : topEffects = [.accepted .settled ⟨5⟩ ⟨1⟩ (topRow 1), .yielded ⟨1⟩,
    .wrote .settled ⟨5⟩ [topRow 1], .accepted .settled ⟨i64Max⟩ ⟨2⟩ (topRow 2), .yielded ⟨2⟩,
    .wrote .settled ⟨i64Max⟩ [topRow 2]] := by decide +kernel

/-- The writer after its first commit, and at the end. -/
def topHalfway : Indexer BlockPosition ValueSet :=
  ⟨topOnce, [.accepted .settled ⟨i64Max⟩ ⟨2⟩ (topRow 2), .yielded ⟨2⟩,
    .wrote .settled ⟨i64Max⟩ [topRow 2]]⟩

def topFinished : Indexer BlockPosition ValueSet := ⟨topTwice, []⟩

theorem topHalfway_filled :
    topHalfway.Filled (MemoryStore BlockPosition) Record .integersOnly ValueSet.table := by
  refine ⟨topEmpty, rfl, rfl, ?_⟩
  have hsubscribe : Indexer.Step (MemoryStore BlockPosition) Record .integersOnly ValueSet.table
      ⟨topEmpty, []⟩ ⟨topEmpty, topEffects⟩ :=
    .subscribe (storedPosition_of_none (d := .integersOnly) rfl) topWrapper i64Max topBackfill []
      (MemoryStore.new []) (Record.inferred ValueSet.table) (by decide +kernel) (fun h => nomatch h)
  rw [topEffects_eq] at hsubscribe
  apply Relation.ReflTransGen.head hsubscribe
  apply Relation.ReflTransGen.head (.passed rfl)
  apply Relation.ReflTransGen.head (.passed rfl)
  exact .single (.wrote rfl topOnce_written (by decide +kernel))

theorem topHalfway_steps : Indexer.Steps (MemoryStore BlockPosition) Record .integersOnly
    ValueSet.table topHalfway topFinished := by
  apply Relation.ReflTransGen.head (.passed rfl)
  apply Relation.ReflTransGen.head (.passed rfl)
  exact .single (.wrote rfl topTwice_written (by decide +kernel))

/-- What a client is answered when it asks for one row from an offset on. -/
def topAnswer (db : Database) (params : RowsQueryParams) : RowsResponse :=
  match queryRowsHandler ValueSet.parse ⟨1, 100⟩ db ValueSet.table params with
  | .ok response => response
  | .error _ => ⟨[], 0, 0⟩

theorem topAnswer_eq {db : Database} {params : RowsQueryParams}
    (h : (queryRowsHandler ValueSet.parse ⟨1, 100⟩ db ValueSet.table params).toBool = true) :
    queryRowsHandler ValueSet.parse ⟨1, 100⟩ db ValueSet.table params
      = .ok (topAnswer db params) := by
  unfold topAnswer
  cases hr : queryRowsHandler ValueSet.parse ⟨1, 100⟩ db ValueSet.table params with
  | error e =>
    rw [hr] at h
    exact nomatch h
  | ok response => rfl

/-- The second row is committed between the first page and the second one. -/
theorem paging_exact_iff_walked : ∃ rows, rows.length = 2 ∧
    (listing 0 i64Max (topFinished.db.rowsOf ValueSet.table)).mapM (fun row =>
      rowToJson ValueSet.parse row (topFinished.db.tableColumns ValueSet.table)) = .ok rows := by
  have hlast : Walk (MemoryStore BlockPosition) Record ValueSet.parse .integersOnly ⟨1, 100⟩
      ValueSet.table ⟨none, none, none, none⟩ topFinished 2 _ topFinished :=
    .short (topAnswer_eq (by decide +kernel)) (by decide +kernel)
  have hsecond : Walk (MemoryStore BlockPosition) Record ValueSet.parse .integersOnly ⟨1, 100⟩
      ValueSet.table ⟨none, none, none, none⟩ topFinished 1 _ topFinished :=
    .full (topAnswer_eq (by decide +kernel)) (by decide +kernel) .refl hlast
  have hwalk : Walk (MemoryStore BlockPosition) Record ValueSet.parse .integersOnly ⟨1, 100⟩
      ValueSet.table ⟨none, none, none, none⟩ topHalfway 0 _ topFinished :=
    .full (topAnswer_eq (by decide +kernel)) (by decide +kernel) topHalfway_steps hsecond
  refine ⟨_, ?_, (paging_exact_iff topHalfway_filled hwalk rfl rfl).mpr (by decide)⟩
  decide +kernel

/-- A client that asks for the blocks above `i64::MAX` is given the row at `i64::MAX`. -/
theorem row_below_range_served : ∃ rows last,
    Walk (MemoryStore BlockPosition) Record ValueSet.parse .integersOnly ⟨1, 100⟩ ValueSet.table
      ⟨some "9223372036854775808", none, some "100", none⟩ topFinished 0 rows last ∧
    topFinished.Filled (MemoryStore BlockPosition) Record .integersOnly ValueSet.table ∧
    parseParam "from_block" (some "9223372036854775808") 0 = .ok (i64Max + 1) ∧
    rows.length = 1 ∧ listing (i64Max + 1) i64Max (last.db.rowsOf ValueSet.table) = [] ∧
    (listing (i64Max + 1) i64Max (last.db.rowsOf ValueSet.table)).mapM (fun row =>
      rowToJson ValueSet.parse row (last.db.tableColumns ValueSet.table)) ≠ .ok rows := by
  obtain ⟨db, htables, hprogress, hsteps⟩ := topHalfway_filled
  have hwalk : Walk (MemoryStore BlockPosition) Record ValueSet.parse .integersOnly ⟨1, 100⟩
      ValueSet.table
        ⟨some "9223372036854775808", none, some "100", none⟩ topFinished 0 _ topFinished :=
    .short (topAnswer_eq (by decide +kernel)) (by decide +kernel)
  have hnone : listing (i64Max + 1) i64Max (topFinished.db.rowsOf ValueSet.table) = [] := by
    decide +kernel
  refine ⟨_, _, hwalk, ⟨db, htables, hprogress, hsteps.trans topHalfway_steps⟩, by decide +kernel,
    by decide +kernel, hnone, fun h => ?_⟩
  have hlen := length_of_mapM h
  rw [hnone] at hlen
  exact absurd hlen (by decide +kernel)

end ArtemisLight
