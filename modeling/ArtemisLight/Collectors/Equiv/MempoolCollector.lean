import ArtemisLight.Collectors.MempoolCollector

/-!
# What the mempool collector gives

Whenever hashes come in and lookups finish: every hash that has been announced is looked up once,
and every transaction that a lookup has found is given once.  A lookup that fails or takes too long
costs its own transaction only, and none keeps the others from being started.
-/

namespace ArtemisLight

open Unordered

variable {π H T : Type} {B : LookupStream H T}

/-- What a run of the collector's stream comes to. -/
structure LooksUp (max : Nat) (h : List (Event H (Lookup T))) (polls : List (Yield T))
    (stream : B.Stream) : Prop where
  bounded : (B.view stream).inProgress ≤ max
  /-- Hashes are looked up in the order in which they were announced. -/
  inOrder : h.filterMap started? <+: h.filterMap arrived?
  /-- A lookup that has been started is answered at most once. -/
  once : (h.filterMap started?).Perm
    ((h.filterMap answered?).map Prod.fst ++ (B.view stream).running)
  /-- The transactions are given in the order in which the lookups found them. -/
  given : ∃ taken, taken <+: h.filterMap answered? ∧
    polls.filterMap given? = taken.filterMap LookupStream.found
  /-- The end comes when everything has been looked up and given. -/
  ended : .ended ∈ polls → (h.filterMap arrived?).Perm ((h.filterMap answered?).map Prod.fst) ∧
    polls.filterMap given? = (h.filterMap answered?).filterMap LookupStream.found
  /-- As does a rest with no lookup in progress. -/
  resting : ∀ events stream', LookupStream.poll stream = (.pending, events, stream') →
    (B.view stream').running = [] →
    (h.filterMap arrived?).Perm ((h.filterMap answered?).map Prod.fst) ∧
      polls.filterMap given? = (h.filterMap answered?).filterMap LookupStream.found

/-- Every hash announced is looked up once, at most `maxConcurrentLookups` at a time, and every
transaction found is given once; a lookup that fails or takes too long loses no other. -/
theorem mempool_collector_looks_up [PendingProvider π] {c c' : MempoolCollector π}
    {stream stream' : B.Stream} (hsub : c.subscribe B = (.ok stream, c'))
    {acts : List (Act H (Lookup T))} {h : List (Event H (Lookup T))} {polls : List (Yield T)}
    (hrun : LookupStream.run stream acts = some (polls, h, stream')) :
    LooksUp c.maxConcurrentLookups.get h polls stream' := by
  -- both streams of hashes start with nothing looked up
  have hnew : B.view stream = .new c.maxConcurrentLookups.get := by
    unfold MempoolCollector.subscribe at hsub
    cases hsource : (subscribeOrPoll PendingProvider.subscribePendingTransactions
        PendingProvider.watchPendingTransactions c.provider).1 with
    | error e => simp [hsource, Except.map] at hsub
    | ok _ =>
      simp only [hsource, Except.map, Prod.mk.injEq, Except.ok.injEq] at hsub
      rw [← hsub.1]
      exact B.view_new _
  have hstart : Unordered.Consistent [] (B.view stream) := hnew ▸ Unordered.Consistent.new _
  obtain ⟨hcap, hc, hgiven, hended⟩ := hstart.run hrun
  rw [hnew] at hcap
  rw [List.nil_append] at hc
  refine ⟨?_, ?_, hc.started, ?_, fun hend => ?_, fun events stream'' hpoll hrest => ?_⟩
  · have hbounded := hc.bounded
    rwa [hcap] at hbounded
  · rw [hc.arrived]
    exact List.prefix_append _ _
  · refine ⟨h.filterMap taken?, ?_, hgiven.symm⟩
    rw [hc.answered]
    exact List.prefix_append _ _
  · obtain ⟨hidle, hready⟩ := hc.ended (hended hend)
    obtain ⟨hrunning, hqueue, -⟩ := idle_iff.mp hidle
    have hanswered := hc.answered
    rw [hready, List.append_nil] at hanswered
    rw [hanswered]
    exact ⟨hc.complete hqueue hrunning hready, hgiven.symm⟩
  · -- the poll has dropped the answers that were left, and has had room for every hash
    have hspec := hc.poll (f := LookupStream.found)
    change BufferUnordered.poll B LookupStream.found stream' = _ at hpoll
    rw [hpoll] at hspec
    obtain ⟨hready, hroom⟩ := hspec.pending rfl
    have hqueue : (B.view stream'').queue = [] := by
      rcases hroom with hroom | hroom
      · exact hroom
      · have hpos := c.maxConcurrentLookups.pos
        have hcap' : (B.view stream'').cap = c.maxConcurrentLookups.get :=
          hspec.cap_eq.trans hcap
        rw [hrest, List.length_nil, hcap'] at hroom
        omega
    have hcomplete := hspec.consistent.complete hqueue hrest hready
    have hanswered := hspec.consistent.answered
    rw [List.filterMap_append, hspec.answered, List.append_nil, hready, List.append_nil]
      at hanswered
    rw [List.filterMap_append, hspec.arrived, List.append_nil] at hcomplete
    have hdropped := hspec.given
    rw [hanswered]
    refine ⟨hcomplete, ?_⟩
    rw [List.filterMap_append, List.filterMap_append, hgiven, hdropped]
    exact (List.append_nil _).symm

/-- A provider without pubsub. -/
structure Polling where

instance : PendingProvider Polling where
  subscribePendingTransactions provider := (.error "pubsub unavailable", provider)
  watchPendingTransactions provider := (.ok (), provider)

theorem two_le_u64Max : 2 ≤ u64Max := by decide

def pairwise : MempoolCollector Polling :=
  (MempoolCollector.new ⟨⟩).withMaxConcurrentLookups ⟨2, Nat.succ_pos _, two_le_u64Max⟩

/-- Three hashes, the lookup of the first of which takes too long. -/
def slowLookup : List (Act Nat (Lookup Nat)) :=
  [.arrive [7, 8, 9], .poll, .answer 1 (.replied (.ok (some 80))), .poll, .close, .poll,
    .answer 1 (.replied (.ok (some 90))), .answer 0 .elapsed, .poll, .poll]

/-- With two lookups at a time, one that takes too long holds up none of the others. -/
theorem mempool_collector_looks_up_slow :
    ∃ (stream' : (buffer : LookupStream Nat Nat).Stream) (h : List (Event Nat (Lookup Nat))),
      pairwise.subscribe (buffer : LookupStream Nat Nat) = (.ok (Unordered.new 2), pairwise) ∧
      LookupStream.run (B := buffer) (Unordered.new 2) slowLookup
        = some ([.pending, .item 80, .pending, .item 90, .ended], h, stream') ∧
      LooksUp 2 h [.pending, .item 80, .pending, .item 90, .ended] stream' := by
  have hsub : pairwise.subscribe (buffer : LookupStream Nat Nat)
      = (.ok (Unordered.new 2), pairwise) := rfl
  obtain ⟨polls, h, stream', hrun, hpolls⟩ : ∃ polls h stream',
      LookupStream.run (B := buffer) (Unordered.new 2) slowLookup = some (polls, h, stream') ∧
        polls = [.pending, .item 80, .pending, .item 90, .ended] := ⟨_, _, _, rfl, rfl⟩
  subst hpolls
  exact ⟨stream', h, hsub, hrun, mempool_collector_looks_up hsub hrun⟩

end ArtemisLight
