import ArtemisLight.ExecutorExt.Equiv.RateLimit
import ArtemisLight.ExecutorExt.Stack

/-!
# What a stack of layers submits

Each layer refines a history of itself to one of the executor inside it: a retry to its attempts, a
rate limit to the same calls at other instants, a deadline to those that have not expired.
`reliability_stack` puts the three together.
-/

namespace ArtemisLight

variable {τ σ A : Type} [TimedExecutor τ A] [TimedExecutor σ A] {since now : Nat}

/-- A call of an executor, with its verdict. -/
abbrev Execution (A : Type) := Handled A (Except Error Unit)

/-- The executor failed to execute the action. -/
def Handled.Failed (c : Execution A) : Prop := ∃ e, c.reply = .error e

/-! ### Retries -/

/-- The attempts at one action, with `left` retries left after the first `retries` ones: all but the
last fail, each starts a backoff after the one before it, and the verdict is the last one's. -/
structure Retried (base : Duration) (left retries : Nat) (c : Execution A)
    (part : List (Execution A)) : Prop where
  same : ∀ s ∈ part, s.request = c.request
  attempts : ∃ failed last, part = failed ++ [last] ∧ (∀ s ∈ failed, s.Failed) ∧
    last.reply = c.reply ∧ last.finish = c.finish
  bounded : part.length ≤ left + 1
  exhausted : c.Failed → part.length = left + 1
  starts : part.head?.map Handled.start = some c.start
  spaced : ∀ (i : Nat) x y, part[i]? = some x → part[i + 1]? = some y →
    x.finish + (Backoff.mk base).delay (retries + i) ≤ y.start

omit [TimedExecutor τ A] in
/-- One attempt decides. -/
theorem Retried.single {base : Duration} {left retries : Nat} {c : Execution A}
    (h : c.Failed → left = 0) : Retried base left retries c [c] := by
  refine ⟨by simp, ⟨[], c, rfl, by simp, rfl, rfl⟩, by simp, fun hf => by simp [h hf], rfl, ?_⟩
  intro i x y hx hy
  exact absurd hy (by simp)

omit [TimedExecutor τ A] in
/-- A failed attempt, and what comes after the backoff. -/
theorem Retried.cons {base : Duration} {left retries : Nat} {first c c' : Execution A}
    {part : List (Execution A)} (h : Retried base left (retries + 1) c' part)
    (hfailed : first.Failed) (hrequest : first.request = c.request)
    (hrequest' : c'.request = c.request) (hreply : c'.reply = c.reply)
    (hfinish : c'.finish = c.finish) (hstart : first.start = c.start)
    (hgap : first.finish + (Backoff.mk base).delay retries ≤ c'.start) :
    Retried base (left + 1) retries c (first :: part) := by
  obtain ⟨failed, last, rfl, hall, hlast, hend⟩ := h.attempts
  refine ⟨?_, ⟨first :: failed, last, rfl, ?_, hlast.trans hreply, hend.trans hfinish⟩, ?_, ?_, ?_,
    ?_⟩
  · intro s hs
    rcases List.mem_cons.mp hs with rfl | hs
    · exact hrequest
    · exact (h.same s hs).trans hrequest'
  · intro s hs
    rcases List.mem_cons.mp hs with rfl | hs
    · exact hfailed
    · exact hall s hs
  · have := h.bounded
    rw [List.length_cons]
    omega
  · rintro ⟨e, he⟩
    rw [List.length_cons, h.exhausted ⟨e, hreply.trans he⟩]
  · exact congrArg some hstart
  · intro i x y hx hy
    cases i with
    | zero =>
      obtain rfl := Option.some.inj hx
      have hy' : (failed ++ [last])[0]? = some y := hy
      have hhead := h.starts
      rw [List.head?_eq_getElem?, hy'] at hhead
      rw [Option.some.inj hhead]
      exact hgap
    | succ i =>
      have := h.spaced i x y hx hy
      rwa [Nat.add_assoc, Nat.add_comm 1 i] at this

/-- The loop makes the attempts at one action. -/
theorem Retry.loop_calls (policy : RetryPolicy) (action : A) (left retries : Nat) (executor : τ)
    (clock : Clock) :
    ∃ part, Calls executor clock.now part (loop policy action left retries executor clock).2.1
        (loop policy action left retries executor clock).2.2.now ∧
      Retried policy.baseDelay left retries ⟨action, clock.now,
        (loop policy action left retries executor clock).1,
        (loop policy action left retries executor clock).2.2.now⟩ part := by
  induction left generalizing retries executor clock with
  | zero =>
    rw [loop]
    rcases h : Timed.call executor clock action with ⟨verdict, executor', clock'⟩
    exact ⟨_, .single h, .single fun _ => rfl⟩
  | succ left ih =>
    rw [loop]
    rcases h : Timed.call executor clock action with ⟨⟨e⟩ | ⟨⟩, executor', clock'⟩
    -- the attempt fails: the rest of the loop goes on after the backoff
    · simp only
      obtain ⟨part, hcalls, hpart⟩ := ih (retries + 1) executor'
        (clock'.sleep ((Backoff.mk policy.baseDelay).delay retries))
      refine ⟨_, ((Calls.single h).wait
        (Nat.le_of_add_right_le (clock'.le_sleep _))).append hcalls, ?_⟩
      exact hpart.cons ⟨e, rfl⟩ rfl rfl rfl rfl rfl (clock'.le_sleep _)
    · refine ⟨_, .single h, .single ?_⟩
      rintro ⟨e, he⟩
      exact absurd he (by simp)

/-- One call of a retry, as a history of the executor inside. -/
theorem Retry.call_attempts {policy : RetryPolicy} {retry retry' : Retry τ} {clock clock' : Clock}
    {action : A} {verdict : Except Error Unit} (hpolicy : retry.policy = policy)
    (hcall : Timed.call retry clock action = (verdict, retry', clock')) :
    ∃ part, Calls retry.executor clock.now part retry'.executor clock'.now ∧
      Retried policy.baseDelay policy.maxRetries 0 ⟨action, clock.now, verdict, clock'.now⟩ part ∧
      retry'.policy = policy := by
  obtain ⟨part, hcalls, hpart⟩ :=
    Retry.loop_calls retry.policy action retry.policy.maxRetries 0 retry.executor clock
  obtain ⟨rfl, hrest⟩ := Prod.mk.inj hcall
  obtain ⟨rfl, rfl⟩ := Prod.mk.inj hrest
  exact ⟨part, hcalls, hpolicy ▸ hpart, hpolicy⟩

/-- Whatever the executor inside, and however long it takes: the retry makes a history of it, in
which every action is attempted at most `maxRetries + 1` times, with the backoff between the
attempts, until one succeeds; its verdict is the last one's. -/
theorem retry_history {retry retry' : Retry τ} {calls : List (Execution A)}
    (h : Calls retry since calls retry' now) :
    ∃ parts, List.Forall₂ (Retried retry.policy.baseDelay retry.policy.maxRetries 0) calls parts ∧
      retry'.policy = retry.policy ∧
      Calls retry.executor since parts.flatten retry'.executor now := by
  refine h.expand Retry.executor (fun layer _ => layer.policy = retry.policy) _ ?_ rfl
  intro layer made clock action verdict layer' clock' hI _ hcall
  exact Retry.call_attempts hI hcall

/-- An executor that is down for some calls, and takes its time. -/
structure Flaky where
  failures : Nat

/-- One call of a flaky executor. -/
def Flaky.execute (flaky : Flaky) (clock : Clock) (_ : A) : Except Error Unit × Flaky × Clock :=
  match flaky.failures with
  | 0 => (.ok (), flaky, clock.sleep 5)
  | failures + 1 => (.error "down", ⟨failures⟩, clock.sleep 5)

theorem Flaky.now_le (flaky : Flaky) (clock : Clock) (action : A) :
    clock.now ≤ (flaky.execute clock action).2.2.now := by
  unfold Flaky.execute
  split <;> exact Nat.le_of_add_right_le (clock.le_sleep 5)

instance : TimedExecutor Flaky A := ⟨Flaky.execute, Flaky.now_le⟩

theorem three_le_u32Max : 3 ≤ u32Max := by decide

/-- Three retries, and a short backoff. -/
def shortRetry (failures : Nat) : Retry Flaky := ⟨⟨failures⟩, 3, 100, three_le_u32Max⟩

theorem flaky_retry : Timed.call (shortRetry 2) (.lateBy 1 1000) (7 : Nat)
    = (.ok (), shortRetry 0, Clock.lateBy 1 1320) := by
  have hfirst : (Backoff.mk 100).delay 0 = 100 := rfl
  have hsecond : (Backoff.mk 100).delay 1 = 200 := rfl
  simp [shortRetry, Timed.call, Retry.execute, Retry.loop, Flaky.execute, Clock.lateBy, Clock.sleep,
    hfirst, hsecond]

/-- Two failures, and a success after the second backoff. -/
theorem retry_history_flaky : ∃ parts : List (List (Execution Nat)),
    List.Forall₂ (Retried 100 3 0) [⟨7, 1000, .ok (), 1320⟩] parts ∧
      Calls (Flaky.mk 2) 1000 parts.flatten (Flaky.mk 0) 1320 := by
  obtain ⟨parts, hparts, -, hcalls⟩ := retry_history (Calls.single flaky_retry)
  exact ⟨parts, hparts, hcalls⟩

/-! ### The rate limit -/

/-- The same call, after a sleep. -/
def Delayed (c : Execution A) (part : List (Execution A)) : Prop :=
  ∃ s, part = [s] ∧ s.request = c.request ∧ s.reply = c.reply ∧ c.start ≤ s.start ∧
    s.finish = c.finish

/-- A limit in time does what `RateLimit.execute` does by the clock that it reads after its sleep,
if the executor inside answers alike. -/
theorem execute_eq_executeAt [Executor τ A] {limit : RateLimit τ} {clock : Clock} {action : A}
    {slept : Option Instant} (hdeadline : limit.deadline = some slept)
    (hinner : ∀ clock verdict executor clock',
      Timed.call limit.executor clock action = (verdict, executor, clock') →
        Executor.execute limit.executor action = (verdict, executor)) :
    limit.execute (fun slept => (slept.elim clock clock.sleepUntil).now) action
      = some ((limit.executeAt clock action).1, (limit.executeAt clock action).2.1) := by
  have hsleep : limit.sleep clock = slept.elim clock clock.sleepUntil := by
    rw [RateLimit.sleep, hdeadline]
    cases slept with
    | none => rfl
    | some t => rfl
  rcases hcall : Timed.call limit.executor (limit.sleep clock) action
    with ⟨verdict, executor, clock'⟩
  unfold RateLimit.execute RateLimit.executeAt
  dsimp only
  rw [hdeadline, hcall, hinner _ _ _ _ hcall, hsleep]
  rfl

/-- However long the executor inside takes: the limit hands it every action once, and the instants
at which it does so are spread by the cap and a second. -/
theorem rate_limit_history {limit limit' : RateLimit τ} {calls : List (Execution A)}
    (h : Calls limit since calls limit' now) (hsent : limit.sent = []) :
    ∃ parts, List.Forall₂ Delayed calls parts ∧
      (limit'.perSecond = limit.perSecond ∧ Retains limit.perSecond.get
        (parts.flatten.map Handled.start) limit'.sent) ∧
      Calls limit.executor since parts.flatten limit'.executor now := by
  refine h.expand RateLimit.executor (fun layer made => layer.perSecond = limit.perSecond ∧
    Retains limit.perSecond.get (made.map Handled.start) layer.sent) _ ?_ ⟨rfl, ?_⟩
  · intro layer made clock action verdict layer' clock' hI hmade hcall
    obtain ⟨hcap, hretains⟩ := hI
    rw [← hcap] at hretains
    -- what the call sleeps until, and when it wakes
    obtain ⟨slept, hdeadline⟩ : ∃ slept, layer.deadline = some slept := by
      rcases deadline_cases hretains.retained_le with ⟨-, hd⟩ | ⟨_, _, -, -, hd⟩
      · exact ⟨_, hd⟩
      · exact ⟨_, hd⟩
    have hle := layer.le_sleep clock
    have hslept : ∀ t, slept = some t → t ≤ (layer.sleep clock).now := by
      rintro t rfl
      rw [RateLimit.sleep, hdeadline]
      exact (clock.le_sleepUntil t).2
    change layer.executeAt clock action = _ at hcall
    unfold RateLimit.executeAt at hcall
    rcases hinner : Timed.call layer.executor (layer.sleep clock) action
      with ⟨verdict', executor', clock''⟩
    simp only [hinner] at hcall
    obtain ⟨rfl, hrest⟩ := Prod.mk.inj hcall
    obtain ⟨rfl, rfl⟩ := Prod.mk.inj hrest
    refine ⟨_, (Calls.nil.wait hle).append (Calls.single hinner),
      ⟨_, rfl, rfl, rfl, hle, rfl⟩, hcap, ?_⟩
    rw [← hcap, List.map_append]
    refine hretains.submit hdeadline ?_ hslept
    intro t ht
    obtain ⟨s, hs, rfl⟩ := List.mem_map.mp ht
    exact Nat.le_trans (Nat.le_trans (hmade s hs).1 (hmade s hs).2) hle
  · refine ⟨List.Pairwise.nil, Spread.nil, ⟨[], ?_, by simp⟩, ?_⟩
    · rw [hsent]
      rfl
    · rw [hsent]
      exact Nat.zero_le _

/-! ### Switches, routes and deadlines -/

/-- The same call, unless it is dropped. -/
def Passed (keep : Execution A → Prop) (c : Execution A) (part : List (Execution A)) : Prop :=
  (¬ keep c ∧ c.finish = c.start ∧ c.reply = .ok () ∧ part = []) ∨ (keep c ∧ part = [c])

omit [TimedExecutor τ A] in
/-- What passes are calls that are kept. -/
theorem passed_sublist {keep : Execution A → Prop} {calls : List (Execution A)}
    {parts : List (List (Execution A))} (h : List.Forall₂ (Passed keep) calls parts) :
    parts.flatten.Sublist calls ∧ ∀ s ∈ parts.flatten, keep s := by
  induction h with
  | nil => exact ⟨List.Sublist.slnil, by simp⟩
  | @cons c part calls parts hc _ ih =>
    rcases hc with ⟨-, -, -, rfl⟩ | ⟨hkeep, rfl⟩
    · exact ⟨ih.1.cons c, ih.2⟩
    · refine ⟨ih.1.cons_cons c, fun s hs => ?_⟩
      rcases List.mem_cons.mp hs with rfl | hs
      · exact hkeep
      · exact ih.2 s hs

/-- While the flag is off, nothing reaches the executor. -/
theorem gated_history {gated gated' : Gated τ} {calls : List (Execution A)}
    (h : Calls gated since calls gated' now) :
    ∃ parts, List.Forall₂ (Passed fun c => gated.enabled c.start = true) calls parts ∧
      gated'.enabled = gated.enabled ∧
      Calls gated.executor since parts.flatten gated'.executor now := by
  refine h.expand Gated.executor (fun layer _ => layer.enabled = gated.enabled) _ ?_ rfl
  intro layer made clock action verdict layer' clock' hI _ hcall
  change layer.execute clock action = _ at hcall
  unfold Gated.execute at hcall
  rw [hI] at hcall
  split at hcall
  · rename_i hon
    rcases hinner : Timed.call layer.executor clock action with ⟨verdict', executor', clock''⟩
    rw [hinner] at hcall
    obtain ⟨rfl, hrest⟩ := Prod.mk.inj hcall
    obtain ⟨rfl, rfl⟩ := Prod.mk.inj hrest
    exact ⟨_, .single hinner, Or.inr ⟨hon, rfl⟩, rfl⟩
  · rename_i hoff
    obtain ⟨rfl, hrest⟩ := Prod.mk.inj hcall
    obtain ⟨rfl, rfl⟩ := Prod.mk.inj hrest
    exact ⟨[], .nil, Or.inl ⟨hoff, rfl, rfl, rfl⟩, hI⟩

/-- A dry run submits nothing. -/
theorem dryRun_history {executor : τ} {gated' : Gated τ} {calls : List (Execution A)}
    (h : Calls (Gated.dryRun executor) since calls gated' now) :
    Calls executor since ([] : List (Execution A)) gated'.executor now := by
  obtain ⟨parts, hparts, -, hcalls⟩ := gated_history h
  have hnil : parts.flatten = [] :=
    List.eq_nil_iff_forall_not_mem.mpr fun s hs => absurd ((passed_sublist hparts).2 s hs)
      (by simp [Gated.dryRun])
  rw [hnil] at hcalls
  exact hcalls

/-- The call of the narrow action, if there is one. -/
def Routed {A2 : Type} (f : A2 → Option A) (c : Execution A2) (part : List (Execution A)) : Prop :=
  (f c.request = none ∧ c.reply = .ok () ∧ part = []) ∨
    ∃ action, f c.request = some action ∧ part = [⟨action, c.start, c.reply, c.finish⟩]

/-- The executor inside is given the actions that the function maps, and no others. -/
theorem filterMapAction_history {A2 : Type} {filter filter' : FilterMapAction τ A A2}
    {calls : List (Execution A2)} (h : Calls filter since calls filter' now) :
    ∃ parts, List.Forall₂ (Routed filter.f) calls parts ∧ filter'.f = filter.f ∧
      Calls filter.executor since parts.flatten filter'.executor now := by
  refine h.expand FilterMapAction.executor (fun layer _ => layer.f = filter.f) _ ?_ rfl
  intro layer made clock action verdict layer' clock' hI _ hcall
  change layer.execute clock action = _ at hcall
  unfold FilterMapAction.execute at hcall
  rw [hI] at hcall
  split at hcall
  · rename_i narrow hf
    rcases hinner : Timed.call layer.executor clock narrow with ⟨verdict', executor', clock''⟩
    rw [hinner] at hcall
    obtain ⟨rfl, hrest⟩ := Prod.mk.inj hcall
    obtain ⟨rfl, rfl⟩ := Prod.mk.inj hrest
    exact ⟨_, .single hinner, Or.inr ⟨narrow, hf, rfl⟩, rfl⟩
  · rename_i hf
    obtain ⟨rfl, hrest⟩ := Prod.mk.inj hcall
    obtain ⟨rfl, rfl⟩ := Prod.mk.inj hrest
    exact ⟨[], .nil, Or.inl ⟨hf, rfl, rfl⟩, hI⟩

section Deadlines

variable [Expires A]

/-- The same call, unless the action has expired. -/
abbrev Unexpired : Execution A → List (Execution A) → Prop :=
  Passed fun c => c.start < Expires.expiresAt c.request

theorem deadline_history {deadline deadline' : Deadline τ} {calls : List (Execution A)}
    (h : Calls deadline since calls deadline' now) :
    ∃ parts, List.Forall₂ Unexpired calls parts ∧
      Calls deadline.executor since parts.flatten deadline'.executor now := by
  have hexpand := h.expand Deadline.executor (fun _ _ => True) Unexpired ?_ trivial
  · obtain ⟨parts, hparts, -, hcalls⟩ := hexpand
    exact ⟨parts, hparts, hcalls⟩
  · intro layer made clock action verdict layer' clock' _ _ hcall
    change layer.execute clock action = _ at hcall
    unfold Deadline.execute at hcall
    split at hcall
    · rename_i hexpired
      obtain ⟨rfl, hrest⟩ := Prod.mk.inj hcall
      obtain ⟨rfl, rfl⟩ := Prod.mk.inj hrest
      exact ⟨[], .nil, Or.inl ⟨Nat.not_lt_of_le hexpired, rfl, rfl, rfl⟩, trivial⟩
    · rename_i hfresh
      rcases hinner : Timed.call layer.executor clock action with ⟨verdict', executor', clock''⟩
      rw [hinner] at hcall
      obtain ⟨rfl, hrest⟩ := Prod.mk.inj hcall
      obtain ⟨rfl, rfl⟩ := Prod.mk.inj hrest
      exact ⟨_, .single hinner, Or.inr ⟨Nat.lt_of_not_le hfresh, rfl⟩, trivial⟩

/-! ### The stack -/

/-- What an action comes to in the stack. -/
structure Persevered (maxRetries : Nat) (c : Execution A) (submissions : List (Execution A)) :
    Prop where
  same : ∀ s ∈ submissions, s.request = c.request
  bounded : submissions.length ≤ maxRetries + 1
  /-- An action that fails has been submitted as often as allowed, and failed every time: its error
  is that of the last submission. -/
  failed : c.Failed → submissions.length = maxRetries + 1 ∧ ∃ earlier last,
    submissions = earlier ++ [last] ∧ (∀ s ∈ earlier, s.Failed) ∧ last.reply = c.reply
  /-- An action that does not fail has been accepted by its last submission, or has expired. -/
  accepted : ¬ c.Failed → ∃ failed, (∀ s ∈ failed, s.Failed) ∧
    ((∃ last, submissions = failed ++ [last] ∧ last.reply = .ok ()) ∨
      (submissions = failed ∧ Expires.expiresAt c.request ≤ c.finish))

/-- The submission that an attempt at the limit makes, if its action has not expired. -/
theorem through_cases {c : Execution A} {part : List (Execution A)}
    (h : Through Delayed Unexpired c part) :
    (∃ s, part = [s] ∧ s.request = c.request ∧ s.reply = c.reply) ∨
      (part = [] ∧ c.reply = .ok () ∧ Expires.expiresAt c.request ≤ c.finish) := by
  obtain ⟨_, _, ⟨s, rfl, hrequest, hreply, -, hfinish⟩, hparts, rfl⟩ := h
  obtain ⟨part', parts', hs, hnil, rfl⟩ := List.forall₂_cons_left_iff.mp hparts
  obtain rfl := List.forall₂_nil_left_iff.mp hnil
  rcases hs with ⟨hexpired, hstill, hok, rfl⟩ | ⟨-, rfl⟩
  · refine Or.inr ⟨rfl, hreply.symm.trans hok, ?_⟩
    rw [← hrequest, ← hfinish, hstill]
    exact Nat.le_of_not_lt hexpired
  · exact Or.inl ⟨s, rfl, hrequest, hreply⟩

/-- Attempts that fail have all been submitted. -/
theorem submitted_of_failed {failed : List (Execution A)} {parts : List (List (Execution A))}
    (h : List.Forall₂ (Through Delayed Unexpired) failed parts) {action : A}
    (hrequest : ∀ s ∈ failed, s.request = action) (hfailed : ∀ s ∈ failed, s.Failed) :
    parts.flatten.length = failed.length ∧
      ∀ s ∈ parts.flatten, s.request = action ∧ s.Failed := by
  induction h with
  | nil => exact ⟨rfl, by simp⟩
  | @cons c part failed parts hc _ ih =>
    obtain ⟨hlen, hall⟩ := ih (fun s hs => hrequest s (List.mem_cons_of_mem _ hs))
      (fun s hs => hfailed s (List.mem_cons_of_mem _ hs))
    obtain ⟨e, he⟩ := hfailed c List.mem_cons_self
    rcases through_cases hc with ⟨s, rfl, hreq, hreply⟩ | ⟨-, hok, -⟩
    · refine ⟨by simp [hlen], fun x hx => ?_⟩
      rcases List.mem_cons.mp hx with rfl | hx
      · exact ⟨hreq.trans (hrequest c List.mem_cons_self), e, hreply.trans he⟩
      · exact hall x hx
    · exact absurd (he.symm.trans hok) (by simp)

theorem Persevered.of_through {base : Duration} {maxRetries : Nat} {c : Execution A}
    {submissions : List (Execution A)}
    (h : Through (Retried base maxRetries 0) (Through Delayed Unexpired) c submissions) :
    Persevered maxRetries c submissions := by
  obtain ⟨part, parts, hpart, hparts, rfl⟩ := h
  obtain ⟨failed, last, rfl, hfailed, hreply, hfinish⟩ := hpart.attempts
  have hbound := hpart.bounded
  have hsame := hpart.same
  -- the parts of the attempts that fail, and the part of the last one
  obtain ⟨parts₁, parts₂, h₁, h₂, rfl⟩ : ∃ parts₁ parts₂,
      List.Forall₂ (Through Delayed Unexpired) failed parts₁ ∧
      List.Forall₂ (Through Delayed Unexpired) [last] parts₂ ∧ parts = parts₁ ++ parts₂ :=
    ⟨_, _, (List.forall₂_take_append _ _ _ hparts.flip).flip,
      (List.forall₂_drop_append _ _ _ hparts.flip).flip, (List.take_append_drop _ _).symm⟩
  obtain ⟨lastPart, _, hlast, hnil, rfl⟩ := List.forall₂_cons_left_iff.mp h₂
  obtain rfl := List.forall₂_nil_left_iff.mp hnil
  obtain ⟨hlen, hall⟩ := submitted_of_failed h₁
    (fun s hs => hsame s (List.mem_append_left _ hs)) hfailed
  have hlastSame := hsame last (by simp)
  rw [List.length_append, List.length_singleton] at hbound
  rw [List.flatten_append, List.flatten_singleton]
  -- the last attempt is submitted, or its action has expired
  rcases through_cases hlast with ⟨s, rfl, hrequest, hreply'⟩ | ⟨rfl, hok, hexpired⟩
  · refine ⟨fun x hx => ?_, by rw [List.length_append, hlen]; exact hbound, fun hf => ⟨?_, ?_⟩,
      fun hf => ⟨parts₁.flatten, fun x hx => (hall x hx).2, Or.inl ⟨s, rfl, ?_⟩⟩⟩
    · rcases List.mem_append.mp hx with hx | hx
      · exact (hall x hx).1
      · rw [List.mem_singleton.mp hx, hrequest, hlastSame]
    · have hexhausted := hpart.exhausted hf
      rw [List.length_append, hlen]
      simpa using hexhausted
    · exact ⟨parts₁.flatten, s, rfl, fun x hx => (hall x hx).2, hreply'.trans hreply⟩
    · rcases hs : s.reply with e | ⟨⟩
      · exact absurd ⟨e, by rw [← hreply, ← hreply', hs]⟩ hf
      · rfl
  · rw [List.append_nil]
    refine ⟨fun x hx => (hall x hx).1, by omega, ?_,
      fun hf => ⟨parts₁.flatten, fun x hx => (hall x hx).2, Or.inr ⟨rfl, ?_⟩⟩⟩
    · rintro ⟨e, he⟩
      exact absurd (he.symm.trans (hreply.symm.trans hok)) (by simp)
    · rw [← hlastSame, ← hfinish]
      exact hexpired

/-- The stack with the deadline innermost and the limit inside the retry, over any executor: no
action is submitted at or after its expiry, no half-open second holds more submissions than the cap,
retries included, and every action is reliably submitted. -/
theorem reliability_stack {stack stack' : Retry (RateLimit (Deadline τ))}
    {calls : List (Execution A)} (h : Calls stack since calls stack' now)
    (hsent : stack.executor.sent = []) :
    ∃ groups : List (List (Execution A)),
      Calls stack.executor.executor.executor since groups.flatten
        stack'.executor.executor.executor now ∧
      List.Forall₂ (Persevered stack.policy.maxRetries) calls groups ∧
      (∀ s ∈ groups.flatten, s.start < Expires.expiresAt s.request) ∧
      ∀ t, (groups.flatten.filter fun s => decide (t ≤ s.start ∧ s.start < t + window)).length
        ≤ stack.executor.perSecond.get := by
  obtain ⟨attempts, hretried, -, hlimit⟩ := h.expand Retry.executor
    (fun layer _ => layer.policy = stack.policy)
    (Retried stack.policy.baseDelay stack.policy.maxRetries 0)
    (fun _ _ _ _ _ _ _ hI _ hcall => Retry.call_attempts hI hcall) rfl
  obtain ⟨delayed, hdelayed, ⟨-, hretains⟩, hdeadline⟩ := rate_limit_history hlimit hsent
  obtain ⟨fresh, hfresh, hvenue⟩ := deadline_history hdeadline
  -- the parts of one call, through the three layers
  obtain ⟨inner, hinner, hflatten⟩ := forall₂_through hdelayed hfresh
  obtain ⟨groups, hgroups, hflatten'⟩ := forall₂_through hretried hinner
  rw [hflatten] at hflatten'
  obtain ⟨hsub, hunexpired⟩ := passed_sublist hfresh
  rw [← hflatten'] at hsub hunexpired hvenue
  refine ⟨groups, hvenue, hgroups.imp fun _ _ hc => .of_through hc, hunexpired, fun t => ?_⟩
  -- what is submitted is among the calls that the limit has let through
  have hcap := hretains.spread.length_filter_le hretains.increasing t
  have hmap : (groups.flatten.filter fun s => decide (t ≤ s.start ∧ s.start < t + window)).length
      = ((groups.flatten.map Handled.start).filter fun x =>
          decide (t ≤ x ∧ x < t + window)).length := by
    rw [List.filter_map, List.length_map]
    rfl
  rw [hmap]
  exact Nat.le_trans ((hsub.map Handled.start).filter _).length_le hcap

end Deadlines

/-- An action that is worth something until an instant. -/
structure Offer where
  expiry : Instant

instance : Expires Offer := ⟨Offer.expiry⟩

theorem one_le_u32Max : 1 ≤ u32Max := by decide

/-- At most one submission a second. -/
def offerStack (failures : Nat) (sent : List Instant) : Retry (RateLimit (Deadline Flaky)) :=
  ⟨⟨⟨⟨failures⟩⟩, ⟨1, Nat.one_pos, one_le_u32Max⟩, sent⟩, 3, 100, three_le_u32Max⟩

/-- The offer is submitted once, and expires while the second attempt waits for the limit. -/
theorem reliability_stack_expiring : ∃ groups : List (List (Execution Offer)),
    Calls (Flaky.mk 2) 1000 groups.flatten (Flaky.mk 1) 1000001001 ∧
      List.Forall₂ (Persevered 3) [⟨⟨1500⟩, 1000, .ok (), 1000001001⟩] groups ∧
      ∀ s ∈ groups.flatten, s.start < Expires.expiresAt s.request := by
  have hcall : Timed.call (offerStack 2 []) (.lateBy 1 1000) (Offer.mk 1500)
      = (.ok (), offerStack 1 [1000001001], Clock.lateBy 1 1000001001) := rfl
  obtain ⟨groups, hcalls, hreliable, hfresh, -⟩ := reliability_stack (Calls.single hcall) rfl
  exact ⟨groups, hcalls, hreliable, hfresh⟩

/-! ### Fallbacks -/

/-- The attempt at the primary executor, and the one at the other executor, which there is only if
the first one fails. -/
def FellBack (c : Execution A) (part : Execution A × Option (Execution A)) : Prop :=
  part.1.request = c.request ∧ part.1.start = c.start ∧
    ((part.1.reply = .ok () ∧ part.2 = none ∧ c.reply = .ok () ∧ c.finish = part.1.finish) ∨
      (part.1.Failed ∧ part.2 = some ⟨c.request, part.1.finish, c.reply, c.finish⟩))

/-- Every action is attempted at the primary executor, and at the other one exactly if it fails
there, right after; the verdict is the last one's. -/
theorem fallback_history {executors executors' : Fallback τ σ} {calls : List (Execution A)}
    (h : Calls executors since calls executors' now) :
    ∃ parts, List.Forall₂ FellBack calls parts ∧
      Calls executors.primary since (parts.map Prod.fst) executors'.primary now ∧
      Calls executors.fallback since (parts.filterMap Prod.snd) executors'.fallback now := by
  induction h with
  | nil => exact ⟨[], .nil, .nil, .nil⟩
  | wait _ le ih =>
    obtain ⟨parts, hparts, hprimary, hfallback⟩ := ih
    exact ⟨parts, hparts, hprimary.wait le, hfallback.wait le⟩
  | @call calls layer layer' clock clock' action verdict _ answer ih =>
    obtain ⟨parts, hparts, hprimary, hfallback⟩ := ih
    change layer.execute clock action = _ at answer
    unfold Fallback.execute at answer
    rcases hp : Timed.call layer.primary clock action with ⟨⟨e⟩ | ⟨⟩, primary, clock₁⟩
    · rw [hp] at answer
      simp only at answer
      rcases hf : Timed.call layer.fallback clock₁ action with ⟨verdict', fallback, clock₂⟩
      rw [hf] at answer
      obtain ⟨rfl, hrest⟩ := Prod.mk.inj answer
      obtain ⟨rfl, rfl⟩ := Prod.mk.inj hrest
      -- the primary fails: the other executor is called when it has
      have hle₁ := Timed.now_le layer.primary clock action
      have hle₂ := Timed.now_le layer.fallback clock₁ action
      rw [hp] at hle₁
      rw [hf] at hle₂
      refine ⟨parts ++ [(⟨action, clock.now, .error e, clock₁.now⟩,
        some ⟨action, clock₁.now, verdict', clock₂.now⟩)],
        List.rel_append hparts (.cons ⟨rfl, rfl, Or.inr ⟨⟨e, rfl⟩, rfl⟩⟩ .nil), ?_, ?_⟩
      · rw [List.map_append]
        exact (hprimary.call hp).wait hle₂
      · rw [List.filterMap_append]
        exact (hfallback.wait hle₁).call hf
    · rw [hp] at answer
      obtain ⟨rfl, hrest⟩ := Prod.mk.inj answer
      obtain ⟨rfl, rfl⟩ := Prod.mk.inj hrest
      have hle := Timed.now_le layer.primary clock action
      rw [hp] at hle
      refine ⟨parts ++ [(⟨action, clock.now, .ok (), clock₁.now⟩, none)],
        List.rel_append hparts (.cons ⟨rfl, rfl, Or.inl ⟨rfl, rfl, rfl, rfl⟩⟩ .nil), ?_, ?_⟩
      · rw [List.map_append]
        exact hprimary.call hp
      · rw [List.filterMap_append]
        show Calls _ _ (_ ++ []) _ _
        rw [List.append_nil]
        exact hfallback.wait hle

/-- The primary executor is down. -/
theorem fallback_history_down : ∃ parts : List (Execution Nat × Option (Execution Nat)),
    List.Forall₂ FellBack [⟨7, 1000, .ok (), 1012⟩] parts ∧
      Calls (Flaky.mk 1) 1000 (parts.map Prod.fst) (Flaky.mk 0) 1012 ∧
      Calls (Flaky.mk 0) 1000 (parts.filterMap Prod.snd) (Flaky.mk 0) 1012 := by
  have hcall : Timed.call (Fallback.mk (Flaky.mk 1) (Flaky.mk 0)) (.lateBy 1 1000) (7 : Nat)
      = (.ok (), Fallback.mk (Flaky.mk 0) (Flaky.mk 0), Clock.lateBy 1 1012) := rfl
  exact fallback_history (Calls.single hcall)

end ArtemisLight
