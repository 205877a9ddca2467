import ArtemisLight.Collectors.BlockCollector
import ArtemisLight.Lib.Trace
import Mathlib.Data.List.Nodup
import Mathlib.Data.List.Perm.Subperm
import Mathlib.Data.Nat.Find

/-!
## Polled blocks

`pollTrace` is the polling loop with a trace of its attempts, each with the queue it leaves.
`polled_blocks_exact`: a hash is attempted on each tick from the one that polled it on, until it is
found or its attempts are exhausted, and every hash found in time is emitted once.
-/

namespace ArtemisLight

/-! ### The trace -/

/-- One attempt to fetch a header. -/
structure FetchAttempt where
  tick : Nat
  hash : BlockHash
  found : Bool
  block : Option NewBlock
  /-- The queue after the attempt. -/
  queue : FetchRetryQueue

/-- A header came back. -/
def Fetched.isFound : Fetched → Bool
  | .ok (some _) => true
  | .ok none => false
  | .error _ => false

/-- The block that a fetch yields. -/
def Fetched.newBlock : Fetched → Option NewBlock
  | .ok (some header) => some ⟨header.hash, header.number⟩
  | .ok none => none
  | .error _ => none

/-- `processAll`, with its attempts. -/
def processTrace (tick : Nat) (fetch : BlockHash → Fetched) : FetchRetryQueue → List BlockHash →
    List FetchAttempt × FetchRetryQueue
  | queue, [] => ([], queue)
  | queue, hash :: hashes =>
    let (block, queue) := queue.process hash (fetch hash)
    let (attempts, last) := processTrace tick fetch queue hashes
    (⟨tick, hash, Fetched.isFound (fetch hash), block, queue⟩ :: attempts, last)

/-- `pollTicks`, with its attempts. -/
def pollTrace (fetch : Nat → BlockHash → Fetched) : Nat → FetchRetryQueue →
    List (List BlockHash) → List FetchAttempt × FetchRetryQueue
  | _, queue, [] => ([], queue)
  | tick, queue, batch :: batches =>
    let (attempts, queue) := processTrace tick (fetch tick) queue (queue.due ++ batch)
    let (later, queue) := pollTrace fetch (tick + 1) queue batches
    (attempts ++ later, queue)

theorem processTrace_eq (tick : Nat) (fetch : BlockHash → Fetched) (queue : FetchRetryQueue)
    (hashes : List BlockHash) :
    processAll fetch queue hashes
      = ((processTrace tick fetch queue hashes).1.filterMap FetchAttempt.block,
        (processTrace tick fetch queue hashes).2) := by
  induction hashes generalizing queue with
  | nil => rfl
  | cons hash hashes ih =>
    simp only [processAll, processTrace]
    rw [ih]
    rcases (queue.process hash (fetch hash)).1 with _ | block <;> simp

/-- The trace is one of the loop. -/
theorem pollTrace_eq (fetch : Nat → BlockHash → Fetched) (tick : Nat) (queue : FetchRetryQueue)
    (batches : List (List BlockHash)) :
    pollTicks fetch tick queue batches
      = ((pollTrace fetch tick queue batches).1.filterMap FetchAttempt.block,
        (pollTrace fetch tick queue batches).2) := by
  induction batches generalizing tick queue with
  | nil => rfl
  | cons batch batches ih =>
    simp only [pollTicks, pollTrace]
    rw [processTrace_eq tick, ih, List.filterMap_append]

/-! ### One result -/

namespace FetchRetryQueue

variable {queue : FetchRetryQueue} {hash : BlockHash} {before after : List (BlockHash × Nat)}
  {failures : Nat}

/-- What remains of an entry after one more attempt: nothing if it was the last one. -/
def retried (maxAttempts : Nat) (entry : BlockHash × Nat) : List (BlockHash × Nat) :=
  if entry.2 + 1 < maxAttempts then [(entry.1, entry.2 + 1)] else []

theorem filter_ne_of_not_mem {pending : List (BlockHash × Nat)} (h : hash ∉ pending.map Prod.fst) :
    (pending.filter fun entry => entry.1 ≠ hash) = pending := by
  rw [List.filter_eq_self]
  intro entry hentry
  rw [decide_eq_true_eq]
  rintro rfl
  exact h (List.mem_map_of_mem hentry)

theorem bump_append (h : hash ∉ before.map Prod.fst) :
    bump hash (before ++ (hash, failures) :: after) = before ++ (hash, failures + 1) :: after := by
  induction before with
  | nil => simp [bump]
  | cons entry before ih =>
    rw [List.map_cons, List.mem_cons, not_or] at h
    rw [List.cons_append, bump, if_neg (Ne.symm h.1), ih h.2]
    rfl

/-- A failure of a hash that is queued. -/
theorem recordFailure_of_mem (hpending : queue.pending = before ++ (hash, failures) :: after)
    (hbefore : hash ∉ before.map Prod.fst) (hafter : hash ∉ after.map Prod.fst) :
    (queue.recordFailure hash).2
      = { queue with
          pending := before ++ retried queue.maxAttempts (hash, failures) ++ after } := by
  have hfind : queue.pending.find? (fun entry => entry.1 = hash) = some (hash, failures) := by
    rw [hpending, List.find?_append, List.find?_eq_none.mpr]
    · simp
    · intro entry hentry heq
      exact hbefore (List.mem_map.mpr ⟨entry, hentry, by simpa using heq⟩)
  unfold recordFailure retried
  rw [hfind]
  simp only
  by_cases hmax : queue.maxAttempts ≤ failures + 1
  · rw [if_pos hmax, if_neg (by omega), hpending, bump_append hbefore, List.filter_append,
      List.filter_cons_of_neg (by simp), filter_ne_of_not_mem hbefore, filter_ne_of_not_mem hafter,
      List.append_nil]
  · rw [if_neg hmax, if_pos (by omega), hpending, bump_append hbefore]
    simp

/-- The first failure of a hash. -/
theorem recordFailure_of_not_mem (h : hash ∉ queue.pending.map Prod.fst) :
    (queue.recordFailure hash).2
      = { queue with pending := queue.pending ++ retried queue.maxAttempts (hash, 0) } := by
  have hfind : queue.pending.find? (fun entry => entry.1 = hash) = none := by
    rw [List.find?_eq_none]
    intro entry hentry heq
    exact h (List.mem_map.mpr ⟨entry, hentry, by simpa using heq⟩)
  unfold recordFailure retried
  rw [hfind]
  simp only
  by_cases hmax : queue.maxAttempts ≤ 1
  · rw [if_pos hmax, if_neg (by omega), List.filter_append, filter_ne_of_not_mem h]
    simp
  · rw [if_neg hmax, if_pos (by omega)]

theorem resolve_of_mem (hpending : queue.pending = before ++ (hash, failures) :: after)
    (hbefore : hash ∉ before.map Prod.fst) (hafter : hash ∉ after.map Prod.fst) :
    queue.resolve hash = { queue with pending := before ++ after } := by
  unfold resolve
  rw [hpending, List.filter_append, List.filter_cons_of_neg (by simp), filter_ne_of_not_mem hbefore,
    filter_ne_of_not_mem hafter]

theorem resolve_of_not_mem (h : hash ∉ queue.pending.map Prod.fst) :
    queue.resolve hash = queue := by
  unfold resolve
  rw [filter_ne_of_not_mem h]

/-- What remains of an entry after an attempt. -/
def survives (maxAttempts : Nat) (found : Bool) (entry : BlockHash × Nat) :
    List (BlockHash × Nat) :=
  if found then [] else retried maxAttempts entry

/-- At most the entry of the same hash remains. -/
theorem survives_sublist (maxAttempts : Nat) (found : Bool) (entry : BlockHash × Nat) :
    ((survives maxAttempts found entry).map Prod.fst).Sublist [entry.1] := by
  unfold survives retried
  split
  · exact List.nil_sublist _
  · split
    · exact List.Sublist.refl _
    · exact List.nil_sublist _

variable {fetched : Fetched}

/-- What a result yields does not depend on the queue. -/
theorem process_block (queue : FetchRetryQueue) (hash : BlockHash) (fetched : Fetched) :
    (queue.process hash fetched).1 = Fetched.newBlock fetched := by
  rcases fetched with error | (_ | header) <;> rfl

/-- A result yields a block exactly when the header was found. -/
theorem newBlock_isSome (fetched : Fetched) :
    (Fetched.newBlock fetched).isSome = Fetched.isFound fetched := by
  rcases fetched with error | (_ | header) <;> rfl

/-- A result for a hash that is queued. -/
theorem process_of_mem (hpending : queue.pending = before ++ (hash, failures) :: after)
    (hbefore : hash ∉ before.map Prod.fst) (hafter : hash ∉ after.map Prod.fst) :
    (queue.process hash fetched).2
      = { queue with
          pending := before ++
            survives queue.maxAttempts (Fetched.isFound fetched) (hash, failures) ++ after } := by
  rcases fetched with error | (_ | header)
  · exact recordFailure_of_mem hpending hbefore hafter
  · exact recordFailure_of_mem hpending hbefore hafter
  · show queue.resolve hash = _
    rw [resolve_of_mem hpending hbefore hafter]
    simp [survives, Fetched.isFound]

/-- A result for a hash that is not queued. -/
theorem process_of_not_mem (h : hash ∉ queue.pending.map Prod.fst) :
    (queue.process hash fetched).2
      = { queue with
          pending := queue.pending
            ++ survives queue.maxAttempts (Fetched.isFound fetched) (hash, 0) } := by
  rcases fetched with error | (_ | header)
  · exact recordFailure_of_not_mem h
  · exact recordFailure_of_not_mem h
  · show queue.resolve hash = _
    rw [resolve_of_not_mem h]
    simp [survives, Fetched.isFound]

end FetchRetryQueue

open FetchRetryQueue

/-! ### The queue at every moment -/

/-- The failed attempts of a trace. -/
def failedHashes (trace : List FetchAttempt) : List BlockHash :=
  (trace.filter fun attempt => !attempt.found).map FetchAttempt.hash

/-- The queue holds each hash once, with its number of failures, in the order of the first ones. -/
structure InOrder (maxAttempts : Nat) (pending : List (BlockHash × Nat)) (failed : List BlockHash) :
    Prop where
  nodup : (pending.map Prod.fst).Nodup
  counts : ∀ entry ∈ pending,
    0 < entry.2 ∧ entry.2 < maxAttempts ∧ entry.2 = failed.count entry.1
  first_failed : (pending.map Prod.fst).Pairwise fun h h' => failed.idxOf h < failed.idxOf h'

namespace InOrder

variable {maxAttempts : Nat} {pending before after : List (BlockHash × Nat)}
  {failed : List BlockHash} {hash : BlockHash} {failures : Nat}

theorem mem_failed (h : InOrder maxAttempts pending failed) {other : BlockHash}
    (hother : other ∈ pending.map Prod.fst) : other ∈ failed := by
  obtain ⟨entry, hentry, rfl⟩ := List.mem_map.mp hother
  obtain ⟨hpos, -, hcount⟩ := h.counts entry hentry
  exact List.count_pos_iff.mp (hcount ▸ hpos)

/-- Members keep their place in the order when failures follow. -/
theorem first_failed_append {keys failed : List BlockHash} (hmem : ∀ h ∈ keys, h ∈ failed)
    (h : keys.Pairwise fun h h' => failed.idxOf h < failed.idxOf h') (later : List BlockHash) :
    keys.Pairwise fun h h' => (failed ++ later).idxOf h < (failed ++ later).idxOf h' := by
  apply h.imp_of_mem
  intro h₁ h₂ hmem₁ hmem₂ hlt
  rw [List.idxOf_append_of_mem (hmem h₁ hmem₁), List.idxOf_append_of_mem (hmem h₂ hmem₂)]
  exact hlt

/-- An entry that is dropped leaves the others in order. -/
theorem drop (h : InOrder maxAttempts (before ++ (hash, failures) :: after) failed) :
    InOrder maxAttempts (before ++ after) failed := by
  have hsub : (before ++ after).Sublist (before ++ (hash, failures) :: after) :=
    (List.sublist_cons_self _ _).append_left before
  exact ⟨h.nodup.sublist (hsub.map Prod.fst),
    fun entry hentry => h.counts entry (hsub.subset hentry),
    h.first_failed.sublist (hsub.map Prod.fst)⟩

/-- A failure of a hash that is not queued any more moves no other entry. -/
theorem fail_other (h : InOrder maxAttempts pending failed) (hhash : hash ∉ pending.map Prod.fst) :
    InOrder maxAttempts pending (failed ++ [hash]) := by
  refine ⟨h.nodup, ?_, ?_⟩
  · intro entry hentry
    obtain ⟨hpos, hlt, hcount⟩ := h.counts entry hentry
    have hne : hash ≠ entry.1 := by
      rintro rfl
      exact hhash (List.mem_map_of_mem hentry)
    refine ⟨hpos, hlt, ?_⟩
    rw [List.count_append, List.count_singleton, hcount]
    simp [hne]
  · exact first_failed_append (fun _ => h.mem_failed) h.first_failed [hash]

/-- One more attempt of a queued hash. -/
theorem survive (h : InOrder maxAttempts (before ++ (hash, failures) :: after) failed)
    (found : Bool) :
    InOrder maxAttempts (before ++ survives maxAttempts found (hash, failures) ++ after)
      (if found then failed else failed ++ [hash]) := by
  have hkeys := h.nodup
  rw [List.map_append, List.map_cons, List.nodup_middle, List.nodup_cons,
    ← List.map_append] at hkeys
  cases found with
  | true =>
    rw [survives, if_pos rfl, if_pos rfl, List.append_nil]
    exact h.drop
  | false =>
    rw [survives, if_neg (by simp), if_neg (by simp), retried]
    by_cases hlt : failures + 1 < maxAttempts
    · rw [if_pos hlt, List.append_assoc, List.singleton_append]
      have hmap : (before ++ (hash, failures + 1) :: after).map Prod.fst
          = (before ++ (hash, failures) :: after).map Prod.fst := by simp
      refine ⟨hmap ▸ h.nodup, ?_, ?_⟩
      · intro entry hentry
        rw [List.mem_append, List.mem_cons] at hentry
        by_cases heq : entry = (hash, failures + 1)
        · obtain ⟨-, -, hcount⟩ := h.counts (hash, failures) (by simp)
          subst heq
          refine ⟨Nat.succ_pos _, hlt, ?_⟩
          rw [List.count_append, List.count_singleton_self]
          exact congrArg (· + 1) hcount
        · have hentry' : entry ∈ before ++ after := by
            rw [List.mem_append]
            tauto
          exact (h.drop.fail_other hkeys.1).counts entry hentry'
      · rw [hmap]
        exact first_failed_append (fun _ => h.mem_failed) h.first_failed [hash]
    · rw [if_neg hlt, List.append_nil]
      exact h.drop.fail_other hkeys.1

/-- The first attempt of a hash. -/
theorem enqueue (h : InOrder maxAttempts pending failed) (hnew : hash ∉ pending.map Prod.fst)
    (hfresh : hash ∉ failed) (found : Bool) :
    InOrder maxAttempts (pending ++ survives maxAttempts found (hash, 0))
      (if found then failed else failed ++ [hash]) := by
  cases found with
  | true =>
    rw [survives, if_pos rfl, if_pos rfl, List.append_nil]
    exact h
  | false =>
    rw [survives, if_neg (by simp), if_neg (by simp), retried]
    have hothers := h.fail_other hnew
    by_cases hlt : 0 + 1 < maxAttempts
    · rw [if_pos hlt]
      refine ⟨?_, ?_, ?_⟩
      · rw [List.map_append, List.map_singleton, List.nodup_append]
        refine ⟨h.nodup, List.nodup_singleton _, ?_⟩
        rintro other hother _ hmem rfl
        rw [List.mem_singleton.mp hmem] at hother
        exact hnew hother
      · intro entry hentry
        rcases List.mem_append.mp hentry with hentry | hentry
        · exact hothers.counts entry hentry
        · rw [List.mem_singleton.mp hentry]
          refine ⟨Nat.one_pos, hlt, ?_⟩
          rw [List.count_append, List.count_singleton_self, List.count_eq_zero.mpr hfresh]
      · rw [List.map_append, List.map_singleton, List.pairwise_append]
        refine ⟨hothers.first_failed, List.pairwise_singleton _ _, ?_⟩
        intro other hother last hlast
        rw [List.mem_singleton.mp hlast, List.idxOf_append_of_mem (h.mem_failed hother),
          List.idxOf_append_of_notMem hfresh]
        exact Nat.lt_of_lt_of_le (List.idxOf_lt_length_of_mem (h.mem_failed hother))
          (Nat.le_add_right _ _)
    · rw [if_neg hlt, List.append_nil]
      exact hothers

end InOrder

/-! ### The results of one tick -/

section Tick

variable {tick : Nat} {fetch : BlockHash → Fetched} {queue : FetchRetryQueue}

/-- The entry of a queued hash, and that the others are of other hashes. -/
theorem exists_entry {pending : List (BlockHash × Nat)} {hash : BlockHash}
    (hnodup : (pending.map Prod.fst).Nodup) (hmem : hash ∈ pending.map Prod.fst) :
    ∃ before failures after, pending = before ++ (hash, failures) :: after ∧
      hash ∉ before.map Prod.fst ∧ hash ∉ after.map Prod.fst := by
  obtain ⟨⟨h, failures⟩, hentry, rfl⟩ := List.mem_map.mp hmem
  obtain ⟨before, after, rfl⟩ := List.append_of_mem hentry
  rw [List.map_append, List.map_cons, List.nodup_middle, List.nodup_cons, List.mem_append,
    not_or] at hnodup
  exact ⟨before, failures, after, rfl, hnodup.1⟩

/-- One result keeps the queue in order, if the hash is queued or never failed before. -/
theorem inOrder_process {failed : List BlockHash} {hash : BlockHash}
    (h : InOrder queue.maxAttempts queue.pending failed)
    (hhash : hash ∈ queue.pending.map Prod.fst ∨ hash ∉ failed) (fetched : Fetched) :
    InOrder queue.maxAttempts (queue.process hash fetched).2.pending
        (if Fetched.isFound fetched then failed else failed ++ [hash]) ∧
      (queue.process hash fetched).2.maxAttempts = queue.maxAttempts ∧
      ∀ other, other ≠ hash → (other ∈ (queue.process hash fetched).2.pending.map Prod.fst ↔
        other ∈ queue.pending.map Prod.fst) := by
  have hsurvivor : ∀ found failures, ∀ other ∈ (survives queue.maxAttempts found
      (hash, failures)).map Prod.fst, other = hash := fun found failures other hother =>
    List.mem_singleton.mp ((survives_sublist _ found (hash, failures)).subset hother)
  by_cases hmem : hash ∈ queue.pending.map Prod.fst
  · obtain ⟨before, failures, after, hpending, hbefore, hafter⟩ := exists_entry h.nodup hmem
    rw [process_of_mem hpending hbefore hafter]
    rw [hpending] at h
    refine ⟨h.survive _, rfl, fun other hne => ?_⟩
    rw [hpending]
    simp only [List.map_append, List.map_cons, List.mem_append, List.mem_cons]
    constructor
    · rintro ((hother | hother) | hother)
      · exact Or.inl hother
      · exact absurd (hsurvivor _ _ other hother) hne
      · exact Or.inr (Or.inr hother)
    · rintro (hother | rfl | hother)
      · exact Or.inl (Or.inl hother)
      · exact absurd rfl hne
      · exact Or.inr hother
  · rw [process_of_not_mem hmem]
    refine ⟨h.enqueue hmem (hhash.resolve_left hmem) _, rfl, fun other hne => ?_⟩
    rw [List.map_append, List.mem_append, or_iff_left_iff_imp]
    intro hother
    exact absurd (hsurvivor _ _ other hother) hne

theorem failedHashes_concat (trace : List FetchAttempt) (attempt : FetchAttempt) :
    failedHashes (trace ++ [attempt])
      = if attempt.found then failedHashes trace else failedHashes trace ++ [attempt.hash] := by
  unfold failedHashes
  rw [List.filter_append, List.map_append]
  cases hfound : attempt.found <;> simp [hfound]

/-- The queue that an attempt leaves is in order. -/
def LeavesInOrder (maxAttempts : Nat) (past : List FetchAttempt) (attempt : FetchAttempt) : Prop :=
  InOrder maxAttempts attempt.queue.pending (failedHashes (past ++ [attempt]))

/-- The queue stays in order throughout a tick. -/
theorem processTrace_inOrder {past : List FetchAttempt} {hashes : List BlockHash}
    (horder : InOrder queue.maxAttempts queue.pending (failedHashes past)) (hnodup : hashes.Nodup)
    (hhashes : ∀ hash ∈ hashes, hash ∈ queue.pending.map Prod.fst ∨ hash ∉ failedHashes past)
    (hpast : Always (LeavesInOrder queue.maxAttempts) past) :
    Always (LeavesInOrder queue.maxAttempts) (past ++ (processTrace tick fetch queue hashes).1) ∧
      InOrder queue.maxAttempts (processTrace tick fetch queue hashes).2.pending
        (failedHashes (past ++ (processTrace tick fetch queue hashes).1)) := by
  induction hashes generalizing queue past with
  | nil =>
    simp only [processTrace, List.append_nil]
    exact ⟨hpast, horder⟩
  | cons hash hashes ih =>
    obtain ⟨hstep, hmax, hothers⟩ :=
      inOrder_process horder (hhashes hash List.mem_cons_self) (fetch hash)
    rw [List.nodup_cons] at hnodup
    let attempt : FetchAttempt := ⟨tick, hash, Fetched.isFound (fetch hash),
      (queue.process hash (fetch hash)).1, (queue.process hash (fetch hash)).2⟩
    have hfailed := failedHashes_concat past attempt
    have hnext : InOrder queue.maxAttempts attempt.queue.pending
        (failedHashes (past ++ [attempt])) := by
      rw [hfailed]
      exact hstep
    rw [← hmax] at hnext hpast
    -- the hashes of a tick are distinct, so an attempt does not change what holds of the others
    have hrest : ∀ other ∈ hashes, other ∈ attempt.queue.pending.map Prod.fst ∨
        other ∉ failedHashes (past ++ [attempt]) := by
      intro other hother
      have hne : other ≠ hash := by
        rintro rfl
        exact hnodup.1 hother
      rcases hhashes other (List.mem_cons_of_mem _ hother) with hmem | hfresh
      · exact Or.inl ((hothers other hne).mpr hmem)
      · refine Or.inr ?_
        rw [hfailed]
        show other ∉ ite _ _ (_ ++ [hash])
        split
        · exact hfresh
        · simp [hfresh, hne]
    have hrun := ih hnext hnodup.2 hrest (hpast.concat hnext)
    rw [hmax, List.append_assoc] at hrun
    exact hrun

/-- The due hashes are attempted in place. -/
theorem processTrace_due {before pending : List (BlockHash × Nat)}
    (hpending : queue.pending = before ++ pending) (hnodup : (queue.pending.map Prod.fst).Nodup) :
    (processTrace tick fetch queue (pending.map Prod.fst)).2
      = { queue with
          pending := before ++ pending.flatMap fun entry =>
            survives queue.maxAttempts (Fetched.isFound (fetch entry.1)) entry } := by
  induction pending generalizing before queue with
  | nil =>
    rw [List.append_nil] at hpending
    simp [processTrace, ← hpending]
  | cons entry pending ih =>
    obtain ⟨hash, failures⟩ := entry
    rw [hpending, List.map_append, List.map_cons] at hnodup
    have hnodup' := hnodup
    rw [List.nodup_middle, List.nodup_cons, List.mem_append, not_or] at hnodup'
    have hprocess := @process_of_mem queue hash before pending failures (fetch hash) hpending
      hnodup'.1.1 hnodup'.1.2
    have hsub : ((queue.process hash (fetch hash)).2.pending.map Prod.fst).Sublist
        (before.map Prod.fst ++ hash :: pending.map Prod.fst) := by
      rw [hprocess, List.map_append, List.map_append, List.append_assoc]
      exact ((survives_sublist _ _ (hash, failures)).append_right _).append_left _
    have hrest := ih (by rw [hprocess]) (List.Nodup.sublist hsub hnodup)
    show (processTrace tick fetch (queue.process hash (fetch hash)).2 (pending.map Prod.fst)).2 = _
    rw [hrest, List.flatMap_cons, hprocess, ← List.append_assoc]

/-- New hashes are queued behind the others. -/
theorem processTrace_batch {batch : List BlockHash} (hbatch : batch.Nodup)
    (hnew : ∀ hash ∈ batch, hash ∉ queue.pending.map Prod.fst) :
    (processTrace tick fetch queue batch).2
      = { queue with
          pending := queue.pending ++ batch.flatMap fun hash =>
            survives queue.maxAttempts (Fetched.isFound (fetch hash)) (hash, 0) } := by
  induction batch generalizing queue with
  | nil => simp [processTrace]
  | cons hash batch ih =>
    rw [List.nodup_cons] at hbatch
    have hprocess := @process_of_not_mem queue hash (fetch hash) (hnew hash List.mem_cons_self)
    have hnew' : ∀ other ∈ batch,
        other ∉ (queue.process hash (fetch hash)).2.pending.map Prod.fst := by
      intro other hother
      rw [hprocess, List.map_append, List.mem_append, not_or]
      refine ⟨hnew other (List.mem_cons_of_mem _ hother), fun hmem => ?_⟩
      have heq : other = hash :=
        List.mem_singleton.mp ((survives_sublist _ _ (hash, 0)).subset hmem)
      rw [heq] at hother
      exact hbatch.1 hother
    have hrest := ih hbatch.2 hnew'
    show (processTrace tick fetch (queue.process hash (fetch hash)).2 batch).2 = _
    rw [hrest, List.flatMap_cons, hprocess, ← List.append_assoc]

theorem processTrace_append (hashes hashes' : List BlockHash) :
    processTrace tick fetch queue (hashes ++ hashes')
      = ((processTrace tick fetch queue hashes).1
          ++ (processTrace tick fetch (processTrace tick fetch queue hashes).2 hashes').1,
        (processTrace tick fetch (processTrace tick fetch queue hashes).2 hashes').2) := by
  induction hashes generalizing queue with
  | nil => rfl
  | cons hash hashes ih =>
    simp only [List.cons_append, processTrace]
    rw [ih]

/-- The queue after a tick: every hash attempted on it, less those found and those exhausted. -/
theorem processTrace_tick {batch : List BlockHash} (hnodup : (queue.pending.map Prod.fst).Nodup)
    (hbatch : batch.Nodup) (hnew : ∀ hash ∈ batch, hash ∉ queue.pending.map Prod.fst) :
    (processTrace tick fetch queue (queue.due ++ batch)).2
      = { queue with
          pending := (queue.pending ++ batch.map fun hash => (hash, 0)).flatMap
            fun entry : BlockHash × Nat =>
              survives queue.maxAttempts (Fetched.isFound (fetch entry.1)) entry } := by
  have hdue := @processTrace_due tick fetch queue [] queue.pending rfl hnodup
  rw [List.nil_append] at hdue
  have hkeys : ∀ hash ∈ batch, hash ∉ (processTrace tick fetch queue queue.due).2.pending.map
      Prod.fst := by
    intro hash hhash hmem
    rw [FetchRetryQueue.due, hdue] at hmem
    obtain ⟨entry, hentry, heq⟩ := List.mem_map.mp hmem
    obtain ⟨earlier, hearlier, hsurvives⟩ := List.mem_flatMap.mp hentry
    have hsame := List.mem_singleton.mp
      ((survives_sublist _ _ earlier).subset (List.mem_map_of_mem hsurvives))
    apply hnew hash hhash
    rw [← heq, hsame]
    exact List.mem_map_of_mem hearlier
  rw [processTrace_append]
  simp only
  rw [processTrace_batch hbatch hkeys, FetchRetryQueue.due, hdue, List.flatMap_append,
    List.flatMap_map]

/-- A tick attempts its hashes in order, and each attempt yields what it fetched. -/
theorem processTrace_attempts (hashes : List BlockHash) :
    (processTrace tick fetch queue hashes).1.map (fun attempt => (attempt.tick, attempt.hash))
        = hashes.map (fun hash => (tick, hash)) ∧
      ∀ attempt ∈ (processTrace tick fetch queue hashes).1,
        attempt.found = Fetched.isFound (fetch attempt.hash) ∧
          attempt.block = Fetched.newBlock (fetch attempt.hash) := by
  induction hashes generalizing queue with
  | nil => exact ⟨rfl, fun _ h => nomatch h⟩
  | cons hash hashes ih =>
    obtain ⟨hmap, hall⟩ := @ih (queue.process hash (fetch hash)).2
    refine ⟨congrArg (List.cons _) hmap, ?_⟩
    intro attempt hattempt
    rcases List.mem_cons.mp hattempt with rfl | hattempt
    · exact ⟨rfl, process_block queue hash (fetch hash)⟩
    · exact hall attempt hattempt

end Tick

/-! ### The whole run -/

section Run

variable (maxAttempts : Nat) (fetch : Nat → BlockHash → Fetched) (batches : List (List BlockHash))

/-- The hash is in the batch of the tick. -/
def PolledOn (tick : Nat) (hash : BlockHash) : Prop :=
  ∃ batch, batches[tick]? = some batch ∧ hash ∈ batch

/-- The hash is not found on any tick of an interval. -/
def Missed (hash : BlockHash) (first last : Nat) : Prop :=
  ∀ tick, first ≤ tick → tick < last → Fetched.isFound (fetch tick hash) = false

/-- The hash is to be attempted on the tick, after some failures: it was polled that many ticks
before, was not found since, and has an attempt left. -/
def Awaited (tick : Nat) (hash : BlockHash) (failures : Nat) : Prop :=
  ∃ first, PolledOn batches first hash ∧ first + failures = tick ∧ failures < maxAttempts ∧
    Missed fetch hash first tick

/-- The attempts before a tick. -/
structure PollRecord (tick : Nat) (trace : List FetchAttempt) : Prop where
  attempted : ∀ earlier hash,
    (earlier, hash) ∈ trace.map (fun attempt => (attempt.tick, attempt.hash)) ↔
      earlier < tick ∧ ∃ failures, Awaited maxAttempts fetch batches earlier hash failures
  once : (trace.map fun attempt => (attempt.tick, attempt.hash)).Nodup
  outcome : ∀ attempt ∈ trace,
    attempt.found = Fetched.isFound (fetch attempt.tick attempt.hash) ∧
      attempt.block = Fetched.newBlock (fetch attempt.tick attempt.hash)
  in_order : Always (LeavesInOrder maxAttempts) trace

/-- The state of the loop at the start of a tick. -/
structure AtTick (tick : Nat) (past : List FetchAttempt) (queue : FetchRetryQueue) : Prop where
  record : PollRecord maxAttempts fetch batches tick past
  max : queue.maxAttempts = maxAttempts
  in_order : InOrder maxAttempts queue.pending (failedHashes past)
  pending_iff : ∀ hash failures, (hash, failures) ∈ queue.pending ↔
    0 < failures ∧ Awaited maxAttempts fetch batches tick hash failures

variable {maxAttempts fetch batches} {tick : Nat} {hash : BlockHash} {failures : Nat}

/-- Hashes that are polled once are polled on one tick. -/
theorem PolledOn.unique (hpolled : batches.flatten.Nodup) {tick' : Nat}
    (h : PolledOn batches tick hash) (h' : PolledOn batches tick' hash) : tick = tick' := by
  obtain ⟨batch, hbatch, hmem⟩ := h
  obtain ⟨batch', hbatch', hmem'⟩ := h'
  obtain ⟨hlt, rfl⟩ := List.getElem?_eq_some_iff.mp hbatch
  obtain ⟨hlt', rfl⟩ := List.getElem?_eq_some_iff.mp hbatch'
  have hdisjoint := List.pairwise_iff_getElem.mp (List.nodup_flatten.mp hpolled).2
  rcases Nat.lt_trichotomy tick tick' with h | h | h
  · exact absurd hmem' (hdisjoint tick tick' hlt hlt' h hmem)
  · exact h
  · exact absurd hmem (hdisjoint tick' tick hlt' hlt h hmem')

/-- A hash is awaited anew when it is polled. -/
theorem awaited_zero (hmax : 0 < maxAttempts) :
    Awaited maxAttempts fetch batches tick hash 0 ↔ PolledOn batches tick hash := by
  constructor
  · rintro ⟨first, hpolled, rfl, -, -⟩
    exact hpolled
  · intro hpolled
    exact ⟨tick, hpolled, rfl, hmax, fun other hle hlt => absurd hlt (Nat.not_lt.mpr hle)⟩

/-- A hash is still awaited after a failure that was not the last one. -/
theorem awaited_succ :
    Awaited maxAttempts fetch batches (tick + 1) hash (failures + 1) ↔
      Awaited maxAttempts fetch batches tick hash failures ∧ failures + 1 < maxAttempts ∧
        Fetched.isFound (fetch tick hash) = false := by
  constructor
  · rintro ⟨first, hpolled, hticks, hlt, hmissed⟩
    refine ⟨⟨first, hpolled, by omega, by omega, ?_⟩, hlt, hmissed tick (by omega) (by omega)⟩
    intro other hle hother
    exact hmissed other hle (by omega)
  · rintro ⟨⟨first, hpolled, hticks, -, hmissed⟩, hlt, hmiss⟩
    refine ⟨first, hpolled, by omega, hlt, ?_⟩
    intro other hle hother
    by_cases heq : other = tick
    · rw [heq]
      exact hmiss
    · exact hmissed other hle (by omega)

theorem mem_survives {found : Bool} {entry : BlockHash × Nat} :
    (hash, failures) ∈ survives maxAttempts found entry ↔
      found = false ∧ entry.2 + 1 < maxAttempts ∧ (hash, failures) = (entry.1, entry.2 + 1) := by
  unfold survives retried
  cases found with
  | true => simp
  | false => by_cases hlt : entry.2 + 1 < maxAttempts <;> simp [hlt]

namespace AtTick

variable {past : List FetchAttempt} {queue : FetchRetryQueue} {batch : List BlockHash}

/-- The hashes of a tick are those that are awaited. -/
theorem mem_entries (h : AtTick maxAttempts fetch batches tick past queue) (hmax : 0 < maxAttempts)
    (hbatch : batches[tick]? = some batch) :
    (hash, failures) ∈ queue.pending ++ batch.map (fun hash => (hash, 0)) ↔
      Awaited maxAttempts fetch batches tick hash failures := by
  rw [List.mem_append, h.pending_iff, List.mem_map]
  have hpolled : hash ∈ batch ↔ PolledOn batches tick hash := by
    simp [PolledOn, hbatch]
  rcases Nat.eq_zero_or_pos failures with rfl | hpos
  · rw [awaited_zero hmax, ← hpolled]
    simp
  · have hne : failures ≠ 0 := Nat.pos_iff_ne_zero.mp hpos
    simp [hpos, hne.symm]

theorem mem_toFetch (h : AtTick maxAttempts fetch batches tick past queue) (hmax : 0 < maxAttempts)
    (hbatch : batches[tick]? = some batch) :
    hash ∈ queue.due ++ batch ↔
      ∃ failures, Awaited maxAttempts fetch batches tick hash failures := by
  have hkeys : queue.due ++ batch
      = (queue.pending ++ batch.map fun hash => (hash, 0)).map Prod.fst := by
    rw [List.map_append, List.map_map]
    exact congrArg _ (List.map_id batch).symm
  rw [hkeys, List.mem_map]
  constructor
  · rintro ⟨⟨other, failures⟩, hentry, rfl⟩
    exact ⟨failures, (h.mem_entries hmax hbatch).mp hentry⟩
  · rintro ⟨failures, hawaited⟩
    exact ⟨(hash, failures), (h.mem_entries hmax hbatch).mpr hawaited, rfl⟩

/-- A hash that failed before was polled before. -/
theorem polled_of_failed (h : AtTick maxAttempts fetch batches tick past queue)
    (hfailed : hash ∈ failedHashes past) : ∃ first < tick, PolledOn batches first hash := by
  obtain ⟨attempt, hattempt, rfl⟩ := List.mem_map.mp hfailed
  have hmem := List.mem_map_of_mem (f := fun attempt => (attempt.tick, attempt.hash))
    (List.mem_of_mem_filter hattempt)
  obtain ⟨hlt, failures, first, hpolled, hticks, -⟩ := (h.record.attempted _ _).mp hmem
  exact ⟨first, by omega, hpolled⟩

/-- A polled hash is new. -/
theorem fresh (h : AtTick maxAttempts fetch batches tick past queue)
    (hpolled : batches.flatten.Nodup) (hhash : PolledOn batches tick hash) :
    hash ∉ failedHashes past := by
  intro hfailed
  obtain ⟨first, hlt, hfirst⟩ := h.polled_of_failed hfailed
  exact absurd (hfirst.unique hpolled hhash) (Nat.ne_of_lt hlt)

/-- The hashes of a tick are distinct, and each is queued or new. -/
theorem toFetch_nodup (h : AtTick maxAttempts fetch batches tick past queue)
    (hpolled : batches.flatten.Nodup) (hbatch : batches[tick]? = some batch) :
    (queue.due ++ batch).Nodup ∧ ∀ hash ∈ queue.due ++ batch,
      hash ∈ queue.pending.map Prod.fst ∨ hash ∉ failedHashes past := by
  have hnew : ∀ hash ∈ batch, hash ∉ failedHashes past := fun hash hhash =>
    h.fresh hpolled ⟨batch, hbatch, hhash⟩
  constructor
  · have hbatchNodup := (List.nodup_flatten.mp hpolled).1 batch (List.mem_of_getElem? hbatch)
    apply List.nodup_append.mpr
    refine ⟨h.in_order.nodup, hbatchNodup, ?_⟩
    rintro hash hdue _ hhash rfl
    exact hnew hash hhash (h.in_order.mem_failed hdue)
  · intro hash hhash
    rcases List.mem_append.mp hhash with hdue | hhash
    · exact Or.inl hdue
    · exact Or.inr (hnew hash hhash)

/-- The attempts of a tick are recorded behind those before it. -/
theorem record_step (h : AtTick maxAttempts fetch batches tick past queue) (hmax : 0 < maxAttempts)
    (hpolled : batches.flatten.Nodup) (hbatch : batches[tick]? = some batch)
    (horder : Always (LeavesInOrder maxAttempts)
      (past ++ (processTrace tick (fetch tick) queue (queue.due ++ batch)).1)) :
    PollRecord maxAttempts fetch batches (tick + 1)
      (past ++ (processTrace tick (fetch tick) queue (queue.due ++ batch)).1) := by
  obtain ⟨hids, houtcome⟩ := @processTrace_attempts tick (fetch tick) queue (queue.due ++ batch)
  refine ⟨?_, ?_, ?_, horder⟩
  · intro earlier hash
    rw [List.map_append, List.mem_append, h.record.attempted, hids, List.mem_map]
    have hhash := @mem_toFetch maxAttempts fetch batches tick hash past queue batch h hmax hbatch
    constructor
    · -- the attempts up to the last tick, and those of this one
      rintro (⟨hlt, hawaited⟩ | ⟨other, hother, heq⟩)
      · exact ⟨by omega, hawaited⟩
      · obtain ⟨rfl, rfl⟩ := Prod.mk.inj heq
        exact ⟨by omega, hhash.mp hother⟩
    · rintro ⟨hlt, hawaited⟩
      by_cases heq : earlier = tick
      · rw [heq] at hawaited ⊢
        exact Or.inr ⟨hash, hhash.mpr hawaited, rfl⟩
      · exact Or.inl ⟨by omega, hawaited⟩
  · rw [List.map_append, hids]
    apply List.nodup_append.mpr
    refine ⟨h.record.once, ?_, ?_⟩
    · exact (h.toFetch_nodup hpolled hbatch).1.map fun hash hash' heq => (Prod.mk.inj heq).2
    · -- the earlier attempts are of earlier ticks
      rintro ⟨earlier, hash⟩ hearlier _ hlater rfl
      obtain ⟨hlt, -⟩ := (h.record.attempted _ _).mp hearlier
      obtain ⟨other, -, heq⟩ := List.mem_map.mp hlater
      exact absurd (Prod.mk.inj heq).1 (by omega)
  · intro attempt hattempt
    rcases List.mem_append.mp hattempt with hearlier | hattempt
    · exact h.record.outcome attempt hearlier
    · have hid := List.mem_map_of_mem (f := fun attempt => (attempt.tick, attempt.hash)) hattempt
      rw [hids] at hid
      obtain ⟨other, -, heq⟩ := List.mem_map.mp hid
      rw [← (Prod.mk.inj heq).1]
      exact houtcome attempt hattempt

/-- What survives of a tick's hashes is what the next tick awaits of them. -/
theorem mem_survivors (h : AtTick maxAttempts fetch batches tick past queue)
    (hmax : 0 < maxAttempts) (hbatch : batches[tick]? = some batch) :
    (hash, failures) ∈ (queue.pending ++ batch.map fun hash => (hash, 0)).flatMap
        (fun entry : BlockHash × Nat =>
          survives maxAttempts (Fetched.isFound (fetch tick entry.1)) entry) ↔
      0 < failures ∧ Awaited maxAttempts fetch batches (tick + 1) hash failures := by
  rw [List.mem_flatMap]
  constructor
  · rintro ⟨⟨other, earlier⟩, hentry, hsurvives⟩
    obtain ⟨hmiss, hlt, heq⟩ := mem_survives.mp hsurvives
    obtain ⟨rfl, rfl⟩ := Prod.mk.inj heq
    exact ⟨Nat.succ_pos _, awaited_succ.mpr ⟨(h.mem_entries hmax hbatch).mp hentry, hlt, hmiss⟩⟩
  · rintro ⟨hpos, hawaited⟩
    obtain ⟨earlier, rfl⟩ := Nat.exists_eq_add_one_of_ne_zero (Nat.pos_iff_ne_zero.mp hpos)
    obtain ⟨hearlier, hlt, hmiss⟩ := awaited_succ.mp hawaited
    exact ⟨(hash, earlier), (h.mem_entries hmax hbatch).mpr hearlier,
      mem_survives.mpr ⟨hmiss, hlt, rfl⟩⟩

/-- One tick. -/
theorem step (h : AtTick maxAttempts fetch batches tick past queue) (hmax : 0 < maxAttempts)
    (hpolled : batches.flatten.Nodup) (hbatch : batches[tick]? = some batch) :
    AtTick maxAttempts fetch batches (tick + 1)
      (past ++ (processTrace tick (fetch tick) queue (queue.due ++ batch)).1)
      (processTrace tick (fetch tick) queue (queue.due ++ batch)).2 := by
  obtain ⟨hnodup, hknown⟩ := h.toFetch_nodup hpolled hbatch
  have horder := @processTrace_inOrder tick (fetch tick) queue past (queue.due ++ batch)
    (h.max.symm ▸ h.in_order) hnodup hknown (h.max.symm ▸ h.record.in_order)
  rw [h.max] at horder
  have hbatchNodup := (List.nodup_append.mp hnodup).2.1
  have hnew : ∀ hash ∈ batch, hash ∉ queue.pending.map Prod.fst := fun hash hhash hdue =>
    (List.nodup_append.mp hnodup).2.2 hash hdue hash hhash rfl
  have htick := @processTrace_tick tick (fetch tick) queue batch h.in_order.nodup hbatchNodup hnew
  refine ⟨h.record_step hmax hpolled hbatch horder.1, ?_, horder.2, fun hash failures => ?_⟩
  · rw [htick]
    exact h.max
  · rw [htick]
    show (hash, failures) ∈ List.flatMap _ _ ↔ _
    rw [h.max]
    exact h.mem_survivors hmax hbatch

/-- The loop up to the end of the stream. -/
theorem run (hmax : 0 < maxAttempts) (hpolled : batches.flatten.Nodup)
    {rest : List (List BlockHash)} (hrest : rest = batches.drop tick)
    (htick : tick ≤ batches.length)
    (h : AtTick maxAttempts fetch batches tick past queue) :
    PollRecord maxAttempts fetch batches batches.length
      (past ++ (pollTrace fetch tick queue rest).1) := by
  induction rest generalizing tick past queue with
  | nil =>
    have hend : tick = batches.length :=
      Nat.le_antisymm htick (List.drop_eq_nil_iff.mp hrest.symm)
    rw [pollTrace, List.append_nil, ← hend]
    exact h.record
  | cons batch rest ih =>
    have hbatch : batches[tick]? = some batch := by
      have hhead := congrArg (fun l : List (List BlockHash) => l[0]?) hrest
      rw [List.getElem?_drop, Nat.add_zero] at hhead
      exact hhead.symm
    have hlt : tick < batches.length := (List.getElem?_eq_some_iff.mp hbatch).1
    have htail : rest = batches.drop (tick + 1) := by
      have hdrop := congrArg List.tail hrest
      rwa [List.tail_drop] at hdrop
    have hrun := ih htail hlt (h.step hmax hpolled hbatch)
    rw [List.append_assoc] at hrun
    exact hrun

end AtTick

/-- How many blocks a trace yields for a hash. -/
def blocksFor (trace : List FetchAttempt) (hash : BlockHash) : Nat :=
  trace.countP fun attempt => attempt.hash = hash && attempt.block.isSome

namespace PollRecord

variable {trace : List FetchAttempt}

/-- An attempt that yields a block is the first one to find the hash. -/
theorem first_found (h : PollRecord maxAttempts fetch batches tick trace) {attempt : FetchAttempt}
    (hattempt : attempt ∈ trace) (hblock : attempt.block.isSome) :
    ∃ first, PolledOn batches first attempt.hash ∧ first ≤ attempt.tick ∧
      attempt.tick < first + maxAttempts ∧ attempt.tick < tick ∧
      Missed fetch attempt.hash first attempt.tick ∧
      Fetched.isFound (fetch attempt.tick attempt.hash) = true := by
  have hid := List.mem_map_of_mem (f := fun attempt => (attempt.tick, attempt.hash)) hattempt
  obtain ⟨hlt, failures, first, hpolled, hticks, hfailures, hmissed⟩ := (h.attempted _ _).mp hid
  refine ⟨first, hpolled, by omega, by omega, hlt, hmissed, ?_⟩
  rw [← newBlock_isSome, ← (h.outcome attempt hattempt).2]
  exact hblock

/-- No hash yields two blocks. -/
theorem blocksFor_le_one (h : PollRecord maxAttempts fetch batches tick trace)
    (hpolled : batches.flatten.Nodup) (hash : BlockHash) : blocksFor trace hash ≤ 1 := by
  let yields : FetchAttempt → Bool := fun attempt => attempt.hash = hash && attempt.block.isSome
  have hids : ((trace.filter yields).map fun attempt => (attempt.tick, attempt.hash)).Nodup :=
    h.once.sublist (List.filter_sublist.map _)
  have hlength : blocksFor trace hash
      = ((trace.filter yields).map fun attempt => (attempt.tick, attempt.hash)).length := by
    rw [List.length_map, ← List.countP_eq_length_filter]
    rfl
  rw [hlength]
  -- Two of them would be on two ticks, and the earlier one found the hash.
  have hsame : ∀ attempt ∈ trace.filter yields, ∀ other ∈ trace.filter yields,
      attempt.tick ≤ other.tick ∧ attempt.hash = other.hash := by
    intro attempt hattempt other hother
    rw [List.mem_filter, Bool.and_eq_true, decide_eq_true_eq] at hattempt hother
    obtain ⟨hattempt, rfl, hblock⟩ := hattempt
    obtain ⟨hother, hhash, hblock'⟩ := hother
    obtain ⟨first, hfirst, hle, -, -, hmissed, -⟩ := h.first_found hattempt hblock
    obtain ⟨first', hfirst', hle', -, -, -, hfound⟩ := h.first_found hother hblock'
    rw [hhash] at hfirst' hfound
    have heq := hfirst.unique hpolled hfirst'
    refine ⟨Nat.not_lt.mp fun hlt => ?_, hhash.symm⟩
    rw [hmissed other.tick (by omega) hlt] at hfound
    exact absurd hfound (by simp)
  rcases hfilter : trace.filter yields with _ | ⟨attempt, rest⟩
  · exact Nat.zero_le 1
  · rw [hfilter] at hids hsame
    have hsub : ((attempt :: rest).map fun attempt => (attempt.tick, attempt.hash))
        ⊆ [(attempt.tick, attempt.hash)] := by
      intro id hid
      obtain ⟨other, hother, rfl⟩ := List.mem_map.mp hid
      have hle := hsame attempt List.mem_cons_self other hother
      have hge := hsame other hother attempt List.mem_cons_self
      rw [List.mem_singleton, Prod.mk.injEq]
      exact ⟨Nat.le_antisymm hge.1 hle.1, hge.2⟩
    exact (List.Nodup.subperm hids hsub).length_le

/-- A hash yields a block if and only if an attempt in time finds it. -/
theorem blocksFor_pos_iff (h : PollRecord maxAttempts fetch batches tick trace) (hash : BlockHash) :
    0 < blocksFor trace hash ↔ ∃ first, PolledOn batches first hash ∧
      ∃ found, first ≤ found ∧ found < first + maxAttempts ∧ found < tick ∧
        Fetched.isFound (fetch found hash) = true := by
  rw [blocksFor, List.countP_pos_iff]
  constructor
  · rintro ⟨attempt, hattempt, hyields⟩
    rw [Bool.and_eq_true, decide_eq_true_eq] at hyields
    obtain ⟨rfl, hblock⟩ := hyields
    obtain ⟨first, hfirst, hle, hlt, htick, -, hfound⟩ := h.first_found hattempt hblock
    exact ⟨first, hfirst, attempt.tick, hle, hlt, htick, hfound⟩
  · rintro ⟨first, hfirst, found, hle, hlt, htick, hfound⟩
    -- The first tick that finds the hash is the one whose attempt yields the block.
    have hexists : ∃ other, first ≤ other ∧ Fetched.isFound (fetch other hash) = true :=
      ⟨found, hle, hfound⟩
    obtain ⟨hfrom, hfinds⟩ := Nat.find_spec hexists
    have hearliest : Nat.find hexists ≤ found := Nat.find_min' hexists ⟨hle, hfound⟩
    have hmissed : Missed fetch hash first (Nat.find hexists) := by
      intro other hother hbefore
      have hnot := Nat.find_min hexists hbefore
      rw [not_and, Bool.not_eq_true] at hnot
      exact hnot hother
    have hid := (h.attempted (Nat.find hexists) hash).mpr
      ⟨by omega, Nat.find hexists - first, first, hfirst, by omega, by omega, hmissed⟩
    obtain ⟨attempt, hattempt, hids⟩ := List.mem_map.mp hid
    obtain ⟨htick', rfl⟩ := Prod.mk.inj hids
    refine ⟨attempt, hattempt, ?_⟩
    rw [(h.outcome attempt hattempt).2, newBlock_isSome, htick', hfinds]
    simp

/-- From a node that answers for the block it is asked for, the blocks of a hash are those with that
hash. -/
theorem count_hash (h : PollRecord maxAttempts fetch batches tick trace)
    (hnode : ∀ tick hash header, fetch tick hash = .ok (some header) → header.hash = hash)
    (hash : BlockHash) :
    ((trace.filterMap FetchAttempt.block).map NewBlock.hash).count hash = blocksFor trace hash := by
  rw [List.count, List.countP_map, List.countP_filterMap]
  apply List.countP_congr
  intro attempt hattempt
  rw [(h.outcome attempt hattempt).2]
  rcases hfetch : fetch attempt.tick attempt.hash with error | (_ | header)
  · simp [Fetched.newBlock]
  · simp [Fetched.newBlock]
  · simp [Fetched.newBlock, hnode _ _ _ hfetch]

end PollRecord

/-- The record of a whole run. -/
theorem PollRecord.of_run (hmax : 0 < maxAttempts) (hpolled : batches.flatten.Nodup) :
    PollRecord maxAttempts fetch batches batches.length
      (pollTrace fetch 0 (FetchRetryQueue.new maxAttempts) batches).1 := by
  have hstart : AtTick maxAttempts fetch batches 0 [] (FetchRetryQueue.new maxAttempts) := by
    refine ⟨⟨?_, List.nodup_nil, ?_, Always.nil⟩, rfl, ⟨List.nodup_nil, ?_, List.Pairwise.nil⟩, ?_⟩
    · simp
    · exact fun _ h => nomatch h
    · exact fun _ h => nomatch h
    · intro hash failures
      constructor
      · exact fun h => nomatch h
      · rintro ⟨hpos, first, -, hticks, -⟩
        omega
  have hrecord := hstart.run hmax hpolled List.drop_zero.symm (Nat.zero_le _)
  rwa [List.nil_append] at hrecord

/-- Every polled hash is attempted on each tick from the one that polled it on, until it is found or
its attempts are exhausted, the blocks of the stream are those of the attempts, a hash yields one
block if it is found in time and none otherwise, and the queue stays in order throughout. -/
theorem polled_blocks_exact (maxAttempts : Nat) (hmax : 0 < maxAttempts)
    (fetch : Nat → BlockHash → Fetched) (batches : List (List BlockHash))
    (hpolled : batches.flatten.Nodup) :
    ∃ trace, trace = (pollTrace fetch 0 (FetchRetryQueue.new maxAttempts) batches).1 ∧
      (pollTicks fetch 0 (FetchRetryQueue.new maxAttempts) batches).1
        = trace.filterMap FetchAttempt.block ∧
      PollRecord maxAttempts fetch batches batches.length trace ∧
      ∀ hash, blocksFor trace hash ≤ 1 ∧
        (blocksFor trace hash = 1 ↔ ∃ first, PolledOn batches first hash ∧
          ∃ found, first ≤ found ∧ found < first + maxAttempts ∧ found < batches.length ∧
            Fetched.isFound (fetch found hash) = true) := by
  have hrecord := @PollRecord.of_run maxAttempts fetch batches hmax hpolled
  refine ⟨_, rfl, by rw [pollTrace_eq], hrecord, fun hash => ?_⟩
  have hle := hrecord.blocksFor_le_one hpolled hash
  refine ⟨hle, ?_⟩
  rw [← hrecord.blocksFor_pos_iff hash]
  omega

/-- A block that is not found at first is emitted on the next tick, and one that is never found is
dropped after three. -/
theorem flaky_block_emitted_once :
    ∃ trace, trace = (pollTrace (fun tick hash =>
        if hash = 1 then (if tick = 0 then .ok none else .ok (some ⟨1, 7⟩))
        else .error "timeout") 0 (FetchRetryQueue.new 3) [[2, 1], [], [], []]).1 ∧
      trace.filterMap FetchAttempt.block = [⟨1, 7⟩] ∧ blocksFor trace 1 = 1 ∧
      trace.map (fun attempt => (attempt.tick, attempt.hash))
        = [(0, 2), (0, 1), (1, 2), (1, 1), (2, 2)] := by
  obtain ⟨trace, rfl, -, -, hblocks⟩ := polled_blocks_exact 3 (by decide) (fun tick hash =>
    if hash = 1 then (if tick = 0 then .ok none else .ok (some ⟨1, 7⟩)) else .error "timeout")
    [[2, 1], [], [], []] (by decide)
  refine ⟨_, rfl, by decide, ?_, by decide⟩
  exact (hblocks 1).2.mpr ⟨0, ⟨[2, 1], rfl, by decide⟩, 1, by decide, by decide, by decide, rfl⟩

/-- The stream of the collector, from a node that answers for the block it is asked for: no block
twice, and each one that is found within three ticks. -/
theorem mem_pollingStream_iff
    (hnode : ∀ tick hash header, fetch tick hash = .ok (some header) → header.hash = hash)
    (hpolled : batches.flatten.Nodup) :
    ((pollingStream fetch batches).map NewBlock.hash).Nodup ∧
      ∀ hash, hash ∈ (pollingStream fetch batches).map NewBlock.hash ↔
        ∃ first, PolledOn batches first hash ∧ ∃ found, first ≤ found ∧ found < first + 3 ∧
          found < batches.length ∧ Fetched.isFound (fetch found hash) = true := by
  have hrecord := @PollRecord.of_run maxFetchAttempts fetch batches (by decide) hpolled
  have hcount (hash : BlockHash) :
      ((pollingStream fetch batches).map NewBlock.hash).count hash
        = blocksFor (pollTrace fetch 0 (FetchRetryQueue.new maxFetchAttempts) batches).1 hash := by
    rw [pollingStream, pollTrace_eq]
    exact hrecord.count_hash hnode hash
  refine ⟨List.nodup_iff_count_le_one.mpr fun hash => ?_, fun hash => ?_⟩
  · rw [hcount]
    exact hrecord.blocksFor_le_one hpolled hash
  · rw [← List.count_pos_iff, hcount]
    exact hrecord.blocksFor_pos_iff hash

end Run

end ArtemisLight
