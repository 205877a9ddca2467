import ArtemisLight.Serving.Equiv.Paging

/-!
# Clamped bounds

What a request asks for is given by its parameters as they are read; the resolved bounds are these
values, clamped so that they fit the signed integers of the database.
-/

namespace ArtemisLight

/-! ### What is asked for -/

/-- Some present parameter is, once trimmed, no `u64`. -/
def RowsQueryParams.Malformed (params : RowsQueryParams) : Prop :=
  ∃ s, (params.fromBlock = some s ∨ params.toBlock = some s ∨ params.limit = some s ∨
    params.offset = some s) ∧ parseU64 (trim s) = none

/-- The value of one parameter. -/
def requestedValue (raw : Option String) (default : Nat) : Option Nat :=
  match raw with
  | none => some default
  | some s => parseU64 (trim s)

/-- The values of all parameters, as they are asked for. -/
def RowsQueryParams.requested (params : RowsQueryParams) (defaultLimit : Nat) : Option Bounds :=
  match requestedValue params.fromBlock 0, requestedValue params.toBlock i64Max,
    requestedValue params.limit defaultLimit, requestedValue params.offset 0 with
  | some fromBlock, some toBlock, some limit, some offset =>
    some { fromBlock, toBlock, limit, offset }
  | _, _, _, _ => none

/-- Every value is clamped, the limit into the configured range. -/
def Bounds.clamped (asked : Bounds) (maxLimit : Nat) : Bounds where
  fromBlock := min asked.fromBlock i64Max
  toBlock := min asked.toBlock i64Max
  limit := clampU64 asked.limit 1 (clampU64 maxLimit 1 i64Max)
  offset := min asked.offset i64Max

variable {params : RowsQueryParams} {defaultLimit maxLimit : Nat}

theorem parseParam_eq (name : String) (raw : Option String) (default : Nat) :
    parseParam name raw default
      = (requestedValue raw default).elim (.error (.invalidQuery name)) .ok := by
  cases raw with
  | none => rfl
  | some s =>
    unfold parseParam requestedValue
    simp only
    cases parseU64 (trim s) <;> rfl

theorem requestedValue_eq_none {raw : Option String} {default : Nat} :
    requestedValue raw default = none ↔ ∃ s, raw = some s ∧ parseU64 (trim s) = none := by
  cases raw with
  | none => exact ⟨fun h => (nomatch h), fun ⟨s, h, _⟩ => (nomatch h)⟩
  | some s => exact ⟨fun h => ⟨s, rfl, h⟩, fun ⟨t, ht, h⟩ => Option.some.inj ht ▸ h⟩

/-- A request resolves to its values, clamped. -/
theorem resolve_of_requested {asked : Bounds} (h : params.requested defaultLimit = some asked) :
    params.resolve defaultLimit maxLimit = .ok (asked.clamped maxLimit) := by
  unfold RowsQueryParams.requested at h
  split at h
  · rename_i fromBlock toBlock limit offset hfrom hto hlimit hoffset
    obtain rfl := Option.some.inj h
    unfold RowsQueryParams.resolve
    rw [parseParam_eq, parseParam_eq, parseParam_eq, parseParam_eq, hfrom, hto, hlimit, hoffset]
    rfl
  · exact nomatch h

/-- A request with a malformed parameter is refused, naming a malformed one. -/
theorem resolve_of_not_requested (maxLimit : Nat) (h : params.requested defaultLimit = none) :
    params.Malformed ∧ ∃ e, params.resolve defaultLimit maxLimit = .error e := by
  unfold RowsQueryParams.resolve
  rw [parseParam_eq, parseParam_eq, parseParam_eq, parseParam_eq]
  rcases hfrom : requestedValue params.fromBlock 0 with _ | fromBlock
  · obtain ⟨s, hs, hparse⟩ := requestedValue_eq_none.mp hfrom
    exact ⟨⟨s, .inl hs, hparse⟩, _, rfl⟩
  rcases hto : requestedValue params.toBlock i64Max with _ | toBlock
  · obtain ⟨s, hs, hparse⟩ := requestedValue_eq_none.mp hto
    exact ⟨⟨s, .inr (.inl hs), hparse⟩, _, rfl⟩
  rcases hlimit : requestedValue params.limit defaultLimit with _ | limit
  · obtain ⟨s, hs, hparse⟩ := requestedValue_eq_none.mp hlimit
    exact ⟨⟨s, .inr (.inr (.inl hs)), hparse⟩, _, rfl⟩
  rcases hoffset : requestedValue params.offset 0 with _ | offset
  · obtain ⟨s, hs, hparse⟩ := requestedValue_eq_none.mp hoffset
    exact ⟨⟨s, .inr (.inr (.inr hs)), hparse⟩, _, rfl⟩
  · unfold RowsQueryParams.requested at h
    rw [hfrom, hto, hlimit, hoffset] at h
    exact nomatch h

theorem not_malformed_of_requested {asked : Bounds}
    (h : params.requested defaultLimit = some asked) : ¬ params.Malformed := by
  rintro ⟨s, hs, hparse⟩
  unfold RowsQueryParams.requested at h
  split at h
  · rename_i hfrom hto hlimit hoffset
    rcases hs with hs | hs | hs | hs
    · exact nomatch (requestedValue_eq_none.mpr ⟨s, hs, hparse⟩).symm.trans hfrom
    · exact nomatch (requestedValue_eq_none.mpr ⟨s, hs, hparse⟩).symm.trans hto
    · exact nomatch (requestedValue_eq_none.mpr ⟨s, hs, hparse⟩).symm.trans hlimit
    · exact nomatch (requestedValue_eq_none.mpr ⟨s, hs, hparse⟩).symm.trans hoffset
  · exact nomatch h

/-! ### What the bounds mean -/

section Meaning

variable (params : RowsQueryParams) (defaultLimit maxLimit : Nat)

/-- The bounds mean what the request asks for. -/
structure Bounds.Means (bounds asked : Bounds) (maxLimit : Nat) (db : Database) (table : String)
    (rows : List StoredRow) : Prop where
  /-- Binding the bounds as signed integers loses nothing. -/
  lossless : asI64 bounds.fromBlock = bounds.fromBlock ∧ asI64 bounds.toBlock = bounds.toBlock ∧
    asI64 bounds.limit = bounds.limit ∧ asI64 bounds.offset = bounds.offset
  fit : bounds.fromBlock ≤ i64Max ∧ bounds.toBlock ≤ i64Max ∧ bounds.limit ≤ i64Max ∧
    bounds.offset ≤ i64Max
  limit : 1 ≤ bounds.limit ∧ bounds.limit ≤ max 1 (min maxLimit i64Max)
  /-- The query selects by the bounds. -/
  query : db.rangeQuery table (asI64 bounds.fromBlock) (asI64 bounds.toBlock) (asI64 bounds.limit)
      (asI64 bounds.offset)
    = .ok (((listing bounds.fromBlock bounds.toBlock rows).drop bounds.offset).take bounds.limit)
  /-- The requested values select the same rows. -/
  selects : (listing bounds.fromBlock bounds.toBlock rows).drop bounds.offset
    = (listing asked.fromBlock asked.toBlock rows).drop asked.offset

/-- A request is refused if a parameter is malformed, and else resolved to bounds that mean what it
asks for.  Neither `clamp` has its bounds the wrong way round. -/
structure RowsQueryParams.Faithful (db : Database) (table : String) (rows : List StoredRow) :
    Prop where
  refused : (∃ e, params.resolve defaultLimit maxLimit = .error e) ↔ params.Malformed
  clamps : 1 ≤ i64Max ∧ 1 ≤ clampU64 maxLimit 1 i64Max
  resolved : ¬ params.Malformed → ∃ bounds asked,
    params.resolve defaultLimit maxLimit = .ok bounds ∧
    params.requested defaultLimit = some asked ∧ bounds.Means asked maxLimit db table rows

/-- Clamping changes nothing: a range that starts within the signed integers is not skipped into
beyond them, or not that long; one that starts above them ends before the highest block, or skips
all the rows there. -/
def Bounds.Exact (asked : Bounds) (rows : List StoredRow) : Prop :=
  (asked.fromBlock ≤ i64Max → asked.offset ≤ i64Max ∨
    (listing asked.fromBlock asked.toBlock rows).length ≤ i64Max) ∧
  (i64Max < asked.fromBlock → asked.toBlock < i64Max ∨
    (rows.filter fun r => decide (r.blockNumber = (i64Max : Int))).length ≤ min asked.offset i64Max)

end Meaning

section Listing

variable {rows : List StoredRow} {fromBlock toBlock offset : Nat}

theorem listing_eq (fromBlock toBlock : Nat) (rows : List StoredRow) :
    listing fromBlock toBlock rows = (selected fromBlock toBlock rows).insertionSort
      fun r r' => r.blockNumber ≤ r'.blockNumber := rfl

theorem drop_min_eq_iff {α : Type} {l : List α} {n m : Nat} :
    l.drop (min n m) = l.drop n ↔ n ≤ m ∨ l.length ≤ m := by
  constructor
  · intro h
    have hlen := congrArg List.length h
    rw [List.length_drop, List.length_drop] at hlen
    omega
  · rintro (h | h)
    · rw [Nat.min_eq_left h]
    · rcases Nat.le_total n m with hle | hle
      · rw [Nat.min_eq_left hle]
      · rw [Nat.min_eq_right hle, List.drop_eq_nil_of_le h,
          List.drop_eq_nil_of_le (Nat.le_trans h hle)]

/-- What a range that starts above `i64::MAX` selects after clamping. -/
theorem selected_top (hle : ∀ r ∈ rows, r.blockNumber ≤ i64Max) (toBlock : Nat) :
    selected i64Max (min toBlock i64Max) rows = if toBlock < i64Max then []
      else rows.filter fun r => decide (r.blockNumber = (i64Max : Int)) := by
  split
  · apply List.filter_eq_nil_iff.mpr
    intro r hr
    simp only [Bool.and_eq_true, decide_eq_true_eq]
    omega
  · apply List.filter_congr
    intro r hr
    have hblock := hle r hr
    rw [Bool.eq_iff_iff]
    simp only [Bool.and_eq_true, decide_eq_true_eq]
    omega

/-- Exactly then do the clamped values select the rows of the requested ones. -/
theorem listing_clamped_iff (hle : ∀ r ∈ rows, r.blockNumber ≤ i64Max) {asked : Bounds}
    {maxLimit : Nat} :
    (listing (asked.clamped maxLimit).fromBlock (asked.clamped maxLimit).toBlock rows).drop
        (asked.clamped maxLimit).offset
      = (listing asked.fromBlock asked.toBlock rows).drop asked.offset ↔ asked.Exact rows := by
  obtain ⟨fromBlock, toBlock, limit, offset⟩ := asked
  show (listing (min fromBlock i64Max) (min toBlock i64Max) rows).drop (min offset i64Max)
    = (listing fromBlock toBlock rows).drop offset ↔ (fromBlock ≤ i64Max → _) ∧
      (i64Max < fromBlock → _)
  rcases Nat.lt_or_ge i64Max fromBlock with hlow | hlow
  · have hnone : listing fromBlock toBlock rows = [] := by
      rw [listing_eq, selected_eq_nil hle hlow]
      rfl
    rw [hnone, List.drop_nil, Nat.min_eq_right (Nat.le_of_lt hlow), List.drop_eq_nil_iff,
      listing_eq, List.length_insertionSort, selected_top hle]
    constructor
    · intro hlen
      refine ⟨fun h => absurd h (Nat.not_le.mpr hlow), fun _ => ?_⟩
      split at hlen
      · rename_i hto
        exact .inl hto
      · exact .inr hlen
    · rintro ⟨-, h⟩
      split
      · exact Nat.zero_le _
      · rename_i hto
        exact (h hlow).resolve_left hto
  · have hsame : listing (min fromBlock i64Max) (min toBlock i64Max) rows
        = listing fromBlock toBlock rows := by
      rw [listing_eq, listing_eq, selected_clamped hle fun h => absurd h.1 (Nat.not_lt.mpr hlow)]
    rw [hsame, drop_min_eq_iff]
    exact ⟨fun h => ⟨fun _ => h, fun hlt => absurd hlt (Nat.not_lt.mpr hlow)⟩, fun h => h.1 hlow⟩

end Listing

/-! ### When they do -/

theorem clampU64_le_max (limit maxLimit : Nat) :
    clampU64 limit 1 (clampU64 maxLimit 1 i64Max) ≤ max 1 (min maxLimit i64Max) := by
  have hmax : 1 ≤ i64Max := by decide
  have hinner : 1 ≤ clampU64 maxLimit 1 i64Max := (clampU64_mem maxLimit hmax).1
  have houter := (clampU64_mem limit hinner).2
  have hcap : clampU64 maxLimit 1 i64Max ≤ max 1 (min maxLimit i64Max) := by
    unfold clampU64
    split
    · omega
    · split <;> omega
  omega

/-- The resolved bounds mean what the request asks for if and only if clamping its values changes
nothing. -/
theorem bounds_faithful_iff {db : Database} {table : String} {t : EventTable}
    (ht : db.tables table = some t)
    (hblocks : ∀ r ∈ t.rows, 0 ≤ r.blockNumber ∧ r.blockNumber ≤ i64Max)
    (params : RowsQueryParams) (defaultLimit maxLimit : Nat) :
    params.Faithful defaultLimit maxLimit db table t.rows ↔
      ∀ asked, params.requested defaultLimit = some asked → asked.Exact t.rows := by
  have hle : ∀ r ∈ t.rows, r.blockNumber ≤ i64Max := fun r hr => (hblocks r hr).2
  constructor
  · rintro ⟨-, -, hresolved⟩ asked hasked
    obtain ⟨bounds, asked', hok, hasked', hmeans⟩ :=
      hresolved (not_malformed_of_requested hasked)
    obtain rfl := Option.some.inj (hasked.symm.trans hasked')
    obtain rfl := Except.ok.inj ((resolve_of_requested hasked).symm.trans hok)
    exact (listing_clamped_iff hle).mp hmeans.selects
  · intro hexact
    have hmax : 1 ≤ i64Max := by decide
    refine ⟨?_, ⟨hmax, (clampU64_mem maxLimit hmax).1⟩, fun hwell => ?_⟩
    · -- an error is given for malformed parameters only
      rcases hasked : params.requested defaultLimit with _ | asked
      · obtain ⟨hmalformed, herror⟩ := resolve_of_not_requested maxLimit hasked
        exact ⟨fun _ => hmalformed, fun _ => herror⟩
      · refine ⟨fun ⟨e, he⟩ => ?_, fun h => absurd h (not_malformed_of_requested hasked)⟩
        rw [resolve_of_requested hasked] at he
        exact nomatch he
    · rcases hasked : params.requested defaultLimit with _ | asked
      · exact absurd (resolve_of_not_requested maxLimit hasked).1 hwell
      · have hlimit := clampU64_limit asked.limit maxLimit
        have hfit : (asked.clamped maxLimit).fromBlock ≤ i64Max ∧
            (asked.clamped maxLimit).toBlock ≤ i64Max ∧
            (asked.clamped maxLimit).limit ≤ i64Max ∧ (asked.clamped maxLimit).offset ≤ i64Max :=
          ⟨Nat.min_le_right _ _, Nat.min_le_right _ _, hlimit.2, Nat.min_le_right _ _⟩
        refine ⟨asked.clamped maxLimit, asked, resolve_of_requested hasked, rfl, ?_⟩
        obtain ⟨hfrom, hto, hlim, hoff⟩ := hfit
        constructor
        · exact ⟨asI64_of_le hfrom, asI64_of_le hto, asI64_of_le hlim, asI64_of_le hoff⟩
        · exact ⟨hfrom, hto, hlim, hoff⟩
        · exact ⟨hlimit.1, clampU64_le_max asked.limit maxLimit⟩
        · rw [asI64_of_le hfrom, asI64_of_le hto, asI64_of_le hlim, asI64_of_le hoff,
            rangeQuery_listing _ _ ht]
          rfl
        · exact (listing_clamped_iff hle).mpr (hexact asked hasked)

/-- The table that holds a row at the highest block. -/
def topEvents : EventTable := (topTwice.tables ValueSet.table).getD ⟨[], []⟩

theorem topEvents_stored : topTwice.tables ValueSet.table = some topEvents := rfl

theorem topEvents_blocks :
    ∀ r ∈ topEvents.rows, 0 ≤ r.blockNumber ∧ r.blockNumber ≤ i64Max := by decide +kernel

/-- All rows from block 5 on, with an offset and a limit beyond every bound. -/
def wideRequest : RowsQueryParams :=
  ⟨some " 5 ", some "18446744073709551615", some "18446744073709551615",
    some "18446744073709551615"⟩

theorem bounds_faithful_iff_wide :
    wideRequest.Faithful 100 1000 topTwice ValueSet.table topEvents.rows := by
  refine (bounds_faithful_iff topEvents_stored topEvents_blocks wideRequest 100 1000).mpr ?_
  intro asked hasked
  have hwide : wideRequest.requested 100 = some ⟨5, u64Max, u64Max, u64Max⟩ := by decide +kernel
  obtain rfl := Option.some.inj (hwide.symm.trans hasked)
  exact ⟨fun _ => .inr (by decide +kernel), fun h => absurd h (by decide)⟩

/-- The blocks above `i64::MAX` are asked for, and the row at `i64::MAX` is selected. -/
theorem bounds_above_top_unfaithful :
    (∀ r ∈ topEvents.rows, 0 ≤ r.blockNumber ∧ r.blockNumber ≤ i64Max) ∧
      topTwice.tables ValueSet.table = some topEvents ∧
      ¬ RowsQueryParams.Faithful ⟨some "9223372036854775808", none, none, none⟩ 100 1000 topTwice
        ValueSet.table topEvents.rows := by
  refine ⟨topEvents_blocks, topEvents_stored, fun h => ?_⟩
  have hasked : RowsQueryParams.requested ⟨some "9223372036854775808", none, none, none⟩ 100
      = some ⟨i64Max + 1, i64Max, 100, 0⟩ := by decide +kernel
  obtain ⟨bounds, asked, hok, hasked', hmeans⟩ := h.resolved (not_malformed_of_requested hasked)
  obtain rfl := Option.some.inj (hasked.symm.trans hasked')
  obtain rfl := Except.ok.inj ((resolve_of_requested hasked).symm.trans hok)
  exact absurd hmeans.selects (by decide +kernel)

end ArtemisLight
