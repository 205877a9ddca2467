import ArtemisLight.Lib.Tiling
import ArtemisLight.Persistence.Scripted
import ArtemisLight.Persistence.Sources

/-!
## The sliced and bisected backfill query

Against an exact source, the successful range queries of a bisected window tile it
(`queryRangeSplitAux_spec`), those of the slice loop tile what it has yielded (`chunkLoop_spec`),
and `chunkedQuery_sliced` says how the whole query can go: all of the range, or every slice before
the one that failed.
-/

namespace ArtemisLight

variable {τ P E : Type} [Position P] [PersistableCollector τ P E] {events : Nat → List (P × E)}
  {H : τ → Prop}

/-! ### The log does not change the query -/

theorem queryRangeSplitAux_logged (fuel : Nat) (c : Logged τ) (lo hi : Nat) :
    queryRangeSplitAux (P := P) (E := E) fuel c.inner lo hi
      = ((queryRangeSplitAux fuel c lo hi).1,
          (queryRangeSplitAux (P := P) (E := E) fuel c lo hi).2.inner) := by
  induction fuel generalizing c lo hi with
  | zero =>
    unfold queryRangeSplitAux
    simp only [PersistableCollector.queryRange]
    rcases PersistableCollector.queryRange (E := E) c.inner (Position.fromSortKey lo : P)
      (Position.fromSortKey hi) with ⟨e | stream, c'⟩
    · simp only
      split <;> rfl
    · rfl
  | succ fuel ih =>
    unfold queryRangeSplitAux
    simp only [PersistableCollector.queryRange]
    rcases PersistableCollector.queryRange (E := E) c.inner (Position.fromSortKey lo : P)
      (Position.fromSortKey hi) with ⟨e | stream, c'⟩
    · simp only
      split
      · -- the log is all that the bisection starts with and the bare one does not
        generalize hc : (Logged.mk c' _ : Logged τ) = c₁
        obtain rfl : c' = c₁.inner := by rw [← hc]
        rw [ih]
        rcases queryRangeSplitAux (P := P) (E := E) fuel c₁ lo (lo + (hi - lo) / 2)
          with ⟨e' | left, c₂⟩
        · rfl
        · simp only
          rw [ih]
          rcases queryRangeSplitAux (P := P) (E := E) fuel c₂ (lo + (hi - lo) / 2 + 1) hi
            with ⟨e'' | right, c₃⟩ <;> rfl
      · rfl
    · rfl

theorem chunkLoop_logged (fuel : Nat) (c : Logged τ) (nextFrom hi chunk : Nat) :
    chunkLoop (P := P) (E := E) fuel c.inner nextFrom hi chunk
      = ((chunkLoop fuel c nextFrom hi chunk).1,
          (chunkLoop (P := P) (E := E) fuel c nextFrom hi chunk).2.inner) := by
  induction fuel generalizing c nextFrom with
  | zero => rfl
  | succ fuel ih =>
    unfold chunkLoop queryRangeSplit
    split
    · simp only [queryRangeSplitAux_logged]
      rcases queryRangeSplitAux (P := P) (E := E)
        (windowEnd nextFrom hi chunk - nextFrom) c nextFrom
        (windowEnd nextFrom hi chunk) with ⟨e | window, c'⟩
      · rfl
      · simp only [ih]
    · rfl

theorem chunkedQuery_logged (c : Logged τ) (lo hi chunk : Nat) :
    chunkedQuery (P := P) (E := E) c.inner lo hi chunk
      = ((chunkedQuery c lo hi chunk).1,
          (chunkedQuery (P := P) (E := E) c lo hi chunk).2.inner) := by
  simp only [chunkedQuery, queryRangeSplit, queryRangeSplitAux_logged]
  rcases queryRangeSplitAux (P := P) (E := E) (windowEnd lo hi chunk - lo) c lo
    (windowEnd lo hi chunk) with ⟨e | first, c'⟩
  · rfl
  · simp only [chunkLoop_logged]

/-! ### One window -/

/-- A stretch of the log without an unsplittable failure: its queries lie in `lo..=hi`, and the
successful ones tile `lo..next`. -/
structure Answered (calls : List Call) (lo next hi : Nat) : Prop where
  splittable : ∀ call ∈ calls, ¬ call.Unsplittable
  inside : ∀ call ∈ calls, lo ≤ call.lo ∧ call.lo ≤ call.hi ∧ call.hi ≤ hi
  tiles : Tiles lo (succeeded calls) next

theorem Answered.nil (lo hi : Nat) : Answered [] lo lo hi := ⟨by simp, by simp, Tiles.nil lo⟩

theorem Answered.single {lo hi : Nat} (h : lo ≤ hi) :
    Answered [⟨lo, hi, none⟩] lo (hi + 1) hi := by
  constructor
  · intro call hcall
    rw [List.mem_singleton.mp hcall]
    rintro ⟨e, he, -⟩
    exact nomatch he
  · intro call hcall
    rw [List.mem_singleton.mp hcall]
    exact ⟨Nat.le_refl _, h, Nat.le_refl _⟩
  · exact Tiles.single h

theorem Answered.append {calls calls' : List Call} {lo mid next hi hi' : Nat} (hhi : hi ≤ hi')
    (h : Answered calls lo mid hi) (h' : Answered calls' mid next hi') :
    Answered (calls ++ calls') lo next hi' := by
  constructor
  · intro call hcall
    exact (List.mem_append.mp hcall).elim (h.splittable call) (h'.splittable call)
  · intro call hcall
    have hmid := h.tiles.le
    rcases List.mem_append.mp hcall with hcall | hcall
    · have := h.inside call hcall
      omega
    · have := h'.inside call hcall
      omega
  · rw [succeeded_append]
    exact h.tiles.append h'.tiles

theorem Answered.widen {calls : List Call} {lo next hi hi' : Nat} (h : Answered calls lo next hi)
    (hhi : hi ≤ hi') : Answered calls lo next hi' :=
  ⟨h.splittable, fun call hcall => ⟨(h.inside call hcall).1, (h.inside call hcall).2.1,
    (h.inside call hcall).2.2.trans hhi⟩, h.tiles⟩

/-- A rejected query that bisection answers adds nothing to the tiling. -/
theorem Answered.cons_rejected {calls : List Call} {lo next hi a b : Nat} {e : Error}
    (hbounds : lo ≤ a ∧ a < b ∧ b ≤ hi) (he : isResponseSizeError e)
    (h : Answered calls lo next hi) : Answered (⟨a, b, some e⟩ :: calls) lo next hi := by
  constructor
  · intro call hcall
    rcases List.mem_cons.mp hcall with rfl | hcall
    · rintro ⟨e', he', hnot⟩
      obtain rfl := Option.some.inj he'
      exact hnot ⟨hbounds.2.1, he⟩
    · exact h.splittable call hcall
  · intro call hcall
    rcases List.mem_cons.mp hcall with rfl | hcall
    · exact ⟨hbounds.1, hbounds.2.1.le, hbounds.2.2⟩
    · exact h.inside call hcall
  · exact h.tiles

/-- The call that ended a query with the error `e`, somewhere in `lo..=hi`. -/
structure Fatal (bad : Call) (lo hi : Nat) (e : Error) : Prop where
  failure : bad.failure = some e
  unsplittable : bad.Unsplittable
  inside : lo ≤ bad.lo ∧ bad.lo ≤ bad.hi ∧ bad.hi ≤ hi

theorem Fatal.mono {bad : Call} {lo lo' hi hi' : Nat} {e : Error} (h : Fatal bad lo hi e)
    (hlo : lo' ≤ lo) (hhi : hi ≤ hi') : Fatal bad lo' hi' e := by
  obtain ⟨h₁, h₂, h₃⟩ := h.inside
  exact ⟨h.failure, h.unsplittable, hlo.trans h₁, h₂, h₃.trans hhi⟩

/-- How the query of one window goes: it is answered as a whole, or a query in it fails for good
right after what had been answered. -/
inductive Window (events : Nat → List (P × E)) (lo hi : Nat) (before : List Call) :
    Except Error (List (P × E)) → List Call → Prop where
  | whole (calls : List Call) : Answered calls lo (hi + 1) hi →
      Window events lo hi before (.ok (eventsIn events lo hi)) (before ++ calls)
  | failed (calls : List Call) {bad : Call} {e : Error} : Answered calls lo bad.lo hi →
      Fatal bad lo hi e → Window events lo hi before (.error e) (before ++ (calls ++ [bad]))

section Exact

variable (hS : ExactSource events H) (hkey : ∀ k, Position.sortKey (Position.fromSortKey k : P) = k)

include hS hkey

/-- One range query of the logged source. -/
theorem logged_queryRange (c : Logged τ) (lo hi : Nat) (hc : H c.inner) :
    (∃ c', H c' ∧ PersistableCollector.queryRange (P := P) c (Position.fromSortKey lo)
        (Position.fromSortKey hi)
          = (.ok (eventsIn events lo hi), ⟨c', c.calls ++ [⟨lo, hi, none⟩]⟩)) ∨
      ∃ c' e, H c' ∧ PersistableCollector.queryRange (P := P) (E := E) c (Position.fromSortKey lo)
        (Position.fromSortKey hi) = (.error e, ⟨c', c.calls ++ [⟨lo, hi, some e⟩]⟩) := by
  have hclosed := hS.query_closed c.inner hc (Position.fromSortKey lo) (Position.fromSortKey hi)
  have hexact := hS.query_exact c.inner hc (Position.fromSortKey lo) (Position.fromSortKey hi)
  simp only [PersistableCollector.queryRange, hkey] at hexact ⊢
  rcases hq : PersistableCollector.queryRange (E := E) c.inner (Position.fromSortKey lo : P)
    (Position.fromSortKey hi) with ⟨e | stream, c'⟩ <;> rw [hq] at hclosed
  · exact .inr ⟨c', e, hclosed, rfl⟩
  · exact .inl ⟨c', hclosed, by rw [hexact stream c' hq]⟩

/-- Bisecting a window: the two halves append. -/
theorem queryRangeSplitAux_spec (fuel : Nat) (c : Logged τ) (lo hi : Nat) (hc : H c.inner)
    (hle : lo ≤ hi) (hfuel : hi - lo ≤ fuel) :
    H (queryRangeSplitAux (P := P) (E := E) fuel c lo hi).2.inner ∧
      Window events lo hi c.calls (queryRangeSplitAux fuel c lo hi).1
        (queryRangeSplitAux (P := P) (E := E) fuel c lo hi).2.calls := by
  induction fuel generalizing c lo hi with
  | zero =>
    obtain rfl : lo = hi := by omega
    unfold queryRangeSplitAux
    rcases logged_queryRange hS hkey c lo lo hc with ⟨c', hc', hq⟩ | ⟨c', e, hc', hq⟩ <;> rw [hq]
    · exact ⟨hc', .whole _ (Answered.single hle)⟩
    · simp only [Nat.lt_irrefl, false_and, if_false]
      exact ⟨hc', .failed [] (Answered.nil lo lo)
        ⟨rfl, ⟨e, rfl, by simp⟩, by simp⟩⟩
  | succ fuel ih =>
    unfold queryRangeSplitAux
    rcases logged_queryRange hS hkey c lo hi hc with ⟨c', hc', hq⟩ | ⟨c', e, hc', hq⟩ <;> rw [hq]
    · exact ⟨hc', .whole _ (Answered.single hle)⟩
    · simp only
      by_cases hsplit : lo < hi ∧ isResponseSizeError e
      · rw [if_pos hsplit]
        generalize hmid : lo + (hi - lo) / 2 = mid
        have hlt : lo ≤ mid ∧ mid < hi := by omega
        -- the rejected query, then the left half, then the right half
        have hreject : ∀ {calls : List Call} {next : Nat}, Answered calls lo next hi →
            Answered (⟨lo, hi, some e⟩ :: calls) lo next hi := fun h =>
          h.cons_rejected ⟨Nat.le_refl _, hsplit.1, Nat.le_refl _⟩ hsplit.2
        have hleft := ih ⟨c', c.calls ++ [⟨lo, hi, some e⟩]⟩ lo mid hc' hlt.1 (by omega)
        generalize queryRangeSplitAux (P := P) (E := E) fuel
          (⟨c', c.calls ++ [⟨lo, hi, some e⟩]⟩ : Logged τ) lo mid = r at hleft ⊢
        obtain ⟨left, c₂, calls₂⟩ := r
        obtain ⟨hc₂, hwin⟩ := hleft
        simp only at hc₂ hwin
        cases hwin with
        | @failed calls bad e' hans hfatal =>
          refine ⟨hc₂, ?_⟩
          rw [List.append_assoc]
          exact .failed _ (hreject (hans.widen hlt.2.le)) (hfatal.mono (Nat.le_refl _) hlt.2.le)
        | whole calls hans =>
          simp only
          have hright := ih ⟨c₂, c.calls ++ [⟨lo, hi, some e⟩] ++ calls⟩ (mid + 1) hi hc₂ hlt.2
            (by omega)
          generalize queryRangeSplitAux (P := P) (E := E) fuel
            (⟨c₂, c.calls ++ [⟨lo, hi, some e⟩] ++ calls⟩ : Logged τ) (mid + 1) hi = r at hright ⊢
          obtain ⟨right, c₃, calls₃⟩ := r
          obtain ⟨hc₃, hwin'⟩ := hright
          simp only at hc₃ hwin'
          cases hwin' with
          | @failed calls' bad e' hans' hfatal =>
            have hsofar := hreject (hans.append hlt.2.le hans')
            have hlog : c.calls ++ [⟨lo, hi, some e⟩] ++ calls ++ (calls' ++ [bad])
                = c.calls ++ ((⟨lo, hi, some e⟩ :: (calls ++ calls')) ++ [bad]) := by simp
            simp only [hlog]
            refine ⟨hc₃, ?_⟩
            exact .failed _ hsofar (hfatal.mono (by omega) (Nat.le_refl _))
          | whole calls' hans' =>
            have hall := hreject (hans.append hlt.2.le hans')
            have hlog : c.calls ++ [⟨lo, hi, some e⟩] ++ calls ++ calls'
                = c.calls ++ (⟨lo, hi, some e⟩ :: (calls ++ calls')) := by simp
            simp only [hlog, eventsIn_append (Nat.le_succ_of_le hlt.1) hlt.2.le]
            refine ⟨hc₃, ?_⟩
            exact .whole _ hall
      · rw [if_neg hsplit]
        exact ⟨hc', .failed [] (Answered.nil lo hi)
          ⟨rfl, ⟨e, rfl, hsplit⟩, Nat.le_refl _, hle, Nat.le_refl _⟩⟩

/-! ### The slices -/

omit hS hkey

/-- Where the slices of the gap `lo..=hi` start. -/
def SliceStart (lo hi chunk start : Nat) : Prop := (∃ n, start = lo + n * chunk) ∧ start ≤ hi

/-- How the slices from `start` on go: they are all answered, or a query in one of them fails for
good and what has been yielded ends right before that slice. -/
inductive Slices (events : Nat → List (P × E)) (lo hi chunk start : Nat) (before : List Call) :
    List (P × E) × ChunkEnd → List Call → Prop where
  | whole (calls : List Call) : Answered calls start (hi + 1) hi →
      Slices events lo hi chunk start before (eventsIn events start hi, .exhausted)
        (before ++ calls)
  | poisoned (calls calls' : List Call) {bad : Call} {e : Error} {slice : Nat} :
      SliceStart lo hi chunk slice → start ≤ slice → Answered calls start slice hi →
      Answered calls' slice bad.lo (windowEnd slice hi chunk) →
      Fatal bad slice (windowEnd slice hi chunk) e →
      Slices events lo hi chunk start before (eventsIn events start (slice - 1), .poisoned)
        (before ++ (calls ++ (calls' ++ [bad])))

omit [Position P] in
/-- A slice that is answered comes before what follows it. -/
theorem Slices.cons {lo hi chunk start mid : Nat} {before calls log : List Call}
    {r : List (P × E) × ChunkEnd} (hmid : start ≤ mid + 1) (hhi : mid ≤ hi)
    (h : Answered calls start (mid + 1) mid)
    (hrest : Slices events lo hi chunk (mid + 1) (before ++ calls) r log) :
    Slices events lo hi chunk start before (eventsIn events start mid ++ r.1, r.2) log := by
  cases hrest with
  | whole calls' h' =>
    rw [eventsIn_append hmid hhi, List.append_assoc]
    exact .whole _ (h.append hhi h')
  | @poisoned calls' calls'' bad e slice hslice hle h' h'' hfatal =>
    rw [eventsIn_append hmid (by omega), List.append_assoc, ← List.append_assoc calls]
    exact .poisoned _ _ hslice (by omega) (h.append hhi h') h'' hfatal

theorem windowEnd_bounds {lo hi : Nat} (chunk : Nat) (hle : lo ≤ hi) (hmax : hi < u64Max) :
    lo ≤ windowEnd lo hi chunk ∧ windowEnd lo hi chunk ≤ hi := by
  unfold windowEnd saturatingAdd
  omega

/-- Below `u64::MAX` the next slice starts right after the last one. -/
theorem saturatingAdd_windowEnd {start hi chunk : Nat} (hmax : hi < u64Max) :
    saturatingAdd u64Max (windowEnd start hi chunk) 1 = windowEnd start hi chunk + 1 := by
  apply saturatingAdd_of_le
  unfold windowEnd
  omega

theorem sliceStart_next {lo hi chunk start : Nat} (hmax : hi < u64Max) (hchunk : 0 < chunk)
    (h : SliceStart lo hi chunk start) :
    SliceStart lo hi chunk (windowEnd start hi chunk + 1) ∨ windowEnd start hi chunk = hi := by
  obtain ⟨⟨n, rfl⟩, hle⟩ := h
  by_cases hend : lo + n * chunk + chunk ≤ hi
  · refine .inl ⟨⟨n + 1, ?_⟩, ?_⟩
    · unfold windowEnd saturatingAdd
      rw [Nat.add_mul, Nat.one_mul]
      omega
    · unfold windowEnd saturatingAdd
      omega
  · right
    unfold windowEnd saturatingAdd
    omega

include hS hkey

/-- The slice loop: each turn is a slice that is answered, and the rest. -/
theorem chunkLoop_spec {lo hi chunk : Nat} (hmax : hi < u64Max) (hchunk : 0 < chunk) (fuel : Nat)
    (c : Logged τ) (start : Nat) (hc : H c.inner) (hpos : 0 < start)
    (hstart : SliceStart lo hi chunk start ∨ start = hi + 1) (hfuel : hi + 1 - start ≤ fuel) :
    Slices events lo hi chunk start c.calls (chunkLoop fuel c start hi chunk).1
      (chunkLoop (P := P) (E := E) fuel c start hi chunk).2.calls := by
  -- beyond `hi` the loop asks for nothing
  have hdone : ∀ before, Slices events lo hi chunk (hi + 1) before ([], .exhausted) before := by
    intro before
    have h : Slices events lo hi chunk (hi + 1) before (eventsIn events (hi + 1) hi, .exhausted)
        (before ++ []) := .whole _ (Answered.nil (hi + 1) hi)
    rwa [eventsIn_of_lt (Nat.lt_succ_self hi), List.append_nil] at h
  induction fuel generalizing c start with
  | zero =>
    obtain rfl : start = hi + 1 := by
      rcases hstart with h | h
      · have := h.2
        omega
      · exact h
    unfold chunkLoop
    rw [if_neg (by omega)]
    exact hdone _
  | succ fuel ih =>
    unfold chunkLoop
    rcases hstart with hslice | rfl
    · rw [if_pos hslice.2]
      obtain ⟨hlo, hhi⟩ := windowEnd_bounds chunk hslice.2 hmax
      have hnext := sliceStart_next hmax hchunk hslice
      have hsplit := queryRangeSplitAux_spec hS hkey _ c start (windowEnd start hi chunk) hc hlo
        (Nat.le_refl _)
      simp only [saturatingAdd_windowEnd hmax]
      rw [queryRangeSplit]
      generalize queryRangeSplitAux (P := P) (E := E) (windowEnd start hi chunk - start) c start
        (windowEnd start hi chunk) = r at hsplit ⊢
      obtain ⟨window, c', log⟩ := r
      obtain ⟨hc', hwin⟩ := hsplit
      simp only at hc' hwin
      -- the window fails for good and poisons the walk, or the walk goes on behind it
      cases hwin with
      | @failed calls bad e hans hfatal =>
        have hnil : eventsIn events start (start - 1) = [] := eventsIn_of_lt (by omega)
        simp only
        rw [← hnil]
        exact .poisoned [] calls hslice (Nat.le_refl _) (Answered.nil start hi) hans hfatal
      | whole calls hans =>
        refine Slices.cons (by omega) hhi hans
          (ih ⟨c', c.calls ++ calls⟩ _ hc' (by omega) ?_ (by omega))
        exact hnext.imp_right fun h => by rw [h]
    · rw [if_neg (by omega)]
      exact hdone _

omit hS hkey

/-! ### The whole query -/

/-- How the query of the gap `lo..=hi` goes, with the log of its range queries: everything is
answered; or the first slice fails for good, and nothing is yielded; or a later slice does, and what
is yielded ends right before it. -/
inductive Sliced (events : Nat → List (P × E)) (lo hi chunk : Nat) :
    Except Error (List (P × E) × ChunkEnd) → List Call → Prop where
  | whole (calls : List Call) : Answered calls lo (hi + 1) hi →
      Sliced events lo hi chunk (.ok (eventsIn events lo hi, .exhausted)) calls
  | failed (calls : List Call) {bad : Call} {e : Error} :
      Answered calls lo bad.lo (windowEnd lo hi chunk) → Fatal bad lo (windowEnd lo hi chunk) e →
      Sliced events lo hi chunk (.error e) (calls ++ [bad])
  | poisoned (calls calls' : List Call) {bad : Call} {e : Error} {slice : Nat} :
      SliceStart lo hi chunk slice → lo < slice → Answered calls lo slice hi →
      Answered calls' slice bad.lo (windowEnd slice hi chunk) →
      Fatal bad slice (windowEnd slice hi chunk) e →
      Sliced events lo hi chunk (.ok (eventsIn events lo (slice - 1), .poisoned))
        (calls ++ (calls' ++ [bad]))

/-- The width, the midpoint and the bounds after it that are computed from a window fit in `u64`. -/
def BoundsFit (call : Call) : Prop :=
  call.lo ≤ call.hi ∧ call.lo + (call.hi - call.lo) / 2 + 1 ≤ u64Max ∧ call.hi + 1 ≤ u64Max

omit [Position P] in
/-- The successful queries tile a first part of the gap, and every query lies in the gap. -/
theorem Sliced.tiles {lo hi chunk : Nat} {r : Except Error (List (P × E) × ChunkEnd)}
    {log : List Call} (h : Sliced events lo hi chunk r log) :
    (∃ next, Tiles lo (succeeded log) next) ∧
      ∀ call ∈ log, lo ≤ call.lo ∧ call.lo ≤ call.hi ∧ call.hi ≤ hi := by
  have hend : ∀ start, windowEnd start hi chunk ≤ hi := fun start => Nat.min_le_right _ _
  have hbad : ∀ {bad : Call} {e : Error}, bad.failure = some e → succeeded [bad] = [] := by
    intro bad e h
    simp [succeeded, h]
  cases h with
  | whole _ hans => exact ⟨⟨_, hans.tiles⟩, hans.inside⟩
  | @failed calls bad e hans hfatal =>
    constructor
    · refine ⟨bad.lo, ?_⟩
      rw [succeeded_append, hbad hfatal.failure, List.append_nil]
      exact hans.tiles
    · intro call hcall
      rcases List.mem_append.mp hcall with hcall | hcall
      · exact (hans.widen (hend lo)).inside call hcall
      · rw [List.mem_singleton.mp hcall]
        exact (hfatal.mono (Nat.le_refl _) (hend lo)).inside
  | @poisoned calls calls' bad e slice hslice hlt hans hans' hfatal =>
    constructor
    · refine ⟨bad.lo, ?_⟩
      rw [succeeded_append, succeeded_append, hbad hfatal.failure, List.append_nil]
      exact hans.tiles.append hans'.tiles
    · intro call hcall
      rcases List.mem_append.mp hcall with hcall | hcall
      · exact hans.inside call hcall
      · rcases List.mem_append.mp hcall with hcall | hcall
        · have := (hans'.widen (hend slice)).inside call hcall
          omega
        · rw [List.mem_singleton.mp hcall]
          exact (hfatal.mono hlt.le (hend slice)).inside

/-- The first slice is queried before anything is yielded, the others by the loop. -/
theorem sliced_chunkedQuery (hS : ExactSource events H)
    (hkey : ∀ k, Position.sortKey (Position.fromSortKey k : P) = k) {lo hi chunk : Nat}
    (hle : lo ≤ hi) (hmax : hi < u64Max) (hchunk : 0 < chunk) (c : Logged τ) (hc : H c.inner)
    (hcalls : c.calls = []) :
    Sliced events lo hi chunk (chunkedQuery c lo hi chunk).1
      (chunkedQuery (P := P) (E := E) c lo hi chunk).2.calls := by
  obtain ⟨hlo, hhi⟩ := windowEnd_bounds chunk hle hmax
  have hfirst : SliceStart lo hi chunk lo := ⟨⟨0, by simp⟩, hle⟩
  have hnext := sliceStart_next hmax hchunk hfirst
  have hsplit :=
    queryRangeSplitAux_spec hS hkey _ c lo (windowEnd lo hi chunk) hc hlo (Nat.le_refl _)
  simp only [chunkedQuery, saturatingAdd_windowEnd hmax, queryRangeSplit]
  generalize queryRangeSplitAux (P := P) (E := E) (windowEnd lo hi chunk - lo) c lo
    (windowEnd lo hi chunk) = r at hsplit ⊢
  obtain ⟨first, c', log⟩ := r
  obtain ⟨hc', hwin⟩ := hsplit
  rw [hcalls] at hwin
  simp only at hc' hwin
  cases hwin with
  | failed calls hans hfatal => exact .failed calls hans hfatal
  | whole calls hans =>
    have hrest := chunkLoop_spec hS hkey hmax hchunk (hi - windowEnd lo hi chunk) ⟨c', [] ++ calls⟩
      (windowEnd lo hi chunk + 1) hc' (by omega) (hnext.imp_right fun h => by rw [h]) (by omega)
    simp only at hrest ⊢
    generalize chunkLoop (P := P) (E := E) (hi - windowEnd lo hi chunk)
      (⟨c', [] ++ calls⟩ : Logged τ)
      (windowEnd lo hi chunk + 1) hi chunk = r at hrest ⊢
    obtain ⟨⟨rest, outcome⟩, c'', log'⟩ := r
    simp only at hrest ⊢
    cases hrest with
    | whole calls' hans' =>
      rw [eventsIn_append (by omega) hhi]
      exact .whole _ (hans.append hhi hans')
    | @poisoned calls' calls'' bad e slice hslice hstart hans' hans'' hfatal =>
      rw [eventsIn_append (by omega) (by omega), List.nil_append, ← List.append_assoc]
      exact .poisoned _ _ hslice (by omega) (hans.append hhi hans') hans'' hfatal

/-- The sliced and bisected query of a gap below `i64::MAX` is the one big query: it yields the
events of the gap, or those before the slice that failed for good; and its successful range queries
cover no key twice. -/
theorem chunkedQuery_exact (hS : ExactSource events H)
    (hkey : ∀ k, Position.sortKey (Position.fromSortKey k : P) = k) {lo hi chunk : Nat}
    (hle : lo ≤ hi) (hmax : hi ≤ i64Max) (hchunk : 0 < chunk) (c : τ) (hc : H c) :
    Sliced events lo hi chunk (chunkedQuery c lo hi chunk).1
        (chunkedQuery (P := P) (E := E) (⟨c, []⟩ : Logged τ) lo hi chunk).2.calls ∧
      (∀ k, covering (succeeded
        (chunkedQuery (P := P) (E := E) (⟨c, []⟩ : Logged τ) lo hi chunk).2.calls) k ≤ 1) ∧
      ∀ call ∈ (chunkedQuery (P := P) (E := E) (⟨c, []⟩ : Logged τ) lo hi chunk).2.calls,
        BoundsFit call := by
  have hmax' : hi + 1 ≤ u64Max := hmax.trans_lt (by decide)
  have hsliced := sliced_chunkedQuery hS hkey hle hmax' hchunk ⟨c, []⟩ hc rfl
  obtain ⟨⟨next, htiles⟩, hinside⟩ := hsliced.tiles
  have hsame := chunkedQuery_logged (P := P) (E := E) (⟨c, []⟩ : Logged τ) lo hi chunk
  refine ⟨?_, fun k => ?_, fun call hcall => ?_⟩
  · rw [hsame]
    exact hsliced
  · rw [htiles.covering_eq]
    split <;> omega
  · have := hinside call hcall
    unfold BoundsFit
    omega

end Exact

/-! ### A provider with a cap -/

/-- A source of `blocks` that rejects every window of more than `cap` blocks. -/
structure CappedCollector (E : Type) where
  blocks : List (List E)
  cap : Nat

/-- The events of a block at its position. -/
def CappedCollector.held {E : Type} (blocks : List (List E)) (k : Nat) :
    List (BlockPosition × E) := (chainOf blocks k).map fun e => (⟨k⟩, e)

instance {E : Type} : PersistableCollector (CappedCollector E) BlockPosition E where
  subscribeIndexed c := (.ok [], c)
  queryRange c a b :=
    (if c.cap ≤ b.block - a.block then .error "query returned more than 10000 results"
      else .ok (eventsIn (CappedCollector.held c.blocks) a.block b.block), c)
  tip c := (.ok ⟨c.blocks.length - 1⟩, c)

theorem CappedCollector.exactSource {E : Type} (blocks : List (List E)) :
    ExactSource (CappedCollector.held blocks)
      fun c : CappedCollector E => c.blocks = blocks where
  query_closed _ hc _ _ := hc
  query_exact c hc a b stream c' h := by
    obtain ⟨h, -⟩ := Prod.mk.inj h
    split at h
    · exact nomatch h
    · rw [← Except.ok.inj h, hc]
      rfl

/-- Four events in six blocks, at most two blocks a query. -/
def cappedCollector : CappedCollector Nat := ⟨[[7], [], [8, 9], [], [], [2]], 2⟩

/-- The first slice of four blocks is bisected, the second one of two blocks is not. -/
theorem capped_query_exact :
    Sliced (CappedCollector.held cappedCollector.blocks) 0 5 4
      (chunkedQuery cappedCollector 0 5 4).1
      [⟨0, 3, some "query returned more than 10000 results"⟩, ⟨0, 1, none⟩, ⟨2, 3, none⟩,
        ⟨4, 5, none⟩] := by
  have hcalls : (chunkedQuery (P := BlockPosition) (E := Nat) (⟨cappedCollector, []⟩ : Logged _)
      0 5 4).2.calls
      = [⟨0, 3, some "query returned more than 10000 results"⟩, ⟨0, 1, none⟩, ⟨2, 3, none⟩,
          ⟨4, 5, none⟩] := by decide +kernel
  have hmax : 5 ≤ i64Max := by decide
  rw [← hcalls]
  exact (chunkedQuery_exact (CappedCollector.exactSource cappedCollector.blocks) (fun _ => rfl)
    (Nat.zero_le 5) hmax (Nat.succ_pos 3) cappedCollector rfl).1

end ArtemisLight
