import ArtemisLight.ExecutorExt.RateLimit
import ArtemisLight.Lib.Spread
import ArtemisLight.Lib.Trace
import Mathlib.Data.List.TakeWhile

/-!
## The sliding window

`Submitted` is the history of a rate limit under a monotone clock, one entry for each call.
`rate_limit_slides`: the submissions of every history are spread by `perSecond` and a second,
although the wrapper retains only the last of them, and a call waits exactly when the cap is reached
in the second before it.
-/

namespace ArtemisLight

variable {τ A : Type}

/-! ### Histories -/

/-- A call that has gone through. -/
structure Submission (A : Type) where
  action : A
  /-- The instant at which `execute` was called. -/
  arrival : Instant
  /-- The instant that the call slept until. -/
  slept : Option Instant
  /-- The instant recorded for the submission. -/
  instant : Instant
  verdict : Except Error Unit

/-- The clock does not run backwards, and a sleep ends no earlier than asked for. -/
structure Timely (arrival : Instant) (clock : Option Instant → Instant) : Prop where
  monotone : ∀ slept, arrival ≤ clock slept
  wakes : ∀ t, t ≤ clock (some t)

/-- The submissions of a sequence of calls, and what the wrapper becomes. -/
inductive Submitted [Executor τ A] (start : RateLimit τ) : List (Submission A) → RateLimit τ → Prop
  | nil : Submitted start [] start
  | call {log : List (Submission A)} {limit limit' : RateLimit τ} {action : A} {arrival : Instant}
      {clock : Option Instant → Instant} {slept : Option Instant} {verdict : Except Error Unit}
      (before : Submitted start log limit) (monotone : ∀ s ∈ log, s.instant ≤ arrival)
      (timely : Timely arrival clock) (deadline : limit.deadline = some slept)
      (execute : limit.execute clock action = some (verdict, limit')) :
      Submitted start (log ++ [⟨action, arrival, slept, clock slept, verdict⟩]) limit'

/-- The call had to wait. -/
def Submission.Waited (s : Submission A) : Prop := ∃ t, s.slept = some t ∧ s.arrival < t

/-- The submissions of `log` within the second before `now`. -/
def withinSecond (log : List (Submission A)) (now : Instant) : List (Submission A) :=
  log.filter fun s => decide (now < s.instant + window)

/-- A call waits exactly when the cap is reached within the second before it, and then until the
submission that is `perSecond` places back leaves the window. -/
structure WaitsForWindow (perSecond : Nat) (before : List (Submission A)) (s : Submission A) :
    Prop where
  waited_iff : s.Waited ↔ perSecond ≤ (withinSecond before s.arrival).length
  until_expired : s.Waited → ∃ i oldest, i + perSecond = before.length ∧ before[i]? = some oldest ∧
    s.slept = some (oldest.instant + window) ∧ oldest.instant + window ≤ s.instant

/-- What the rate limit guarantees of a history. -/
structure Limited [Executor τ A] (start : RateLimit τ) (log : List (Submission A))
    (limit : RateLimit τ) : Prop where
  increasing : (log.map Submission.instant).Pairwise (· ≤ ·)
  spread : Spread start.perSecond.get window (log.map Submission.instant)
  /-- No half-open second holds more submissions than the cap. -/
  capped : ∀ t, ((log.map Submission.instant).filter fun s =>
    decide (t ≤ s ∧ s < t + window)).length ≤ start.perSecond.get
  /-- Every action reaches the executor once, in order, and its verdict is returned. -/
  forwarded : executeAll start.executor (log.map Submission.action)
    = (log.map Submission.verdict, limit.executor)
  waits : Always (WaitsForWindow start.perSecond.get) log
  retained_le : limit.sent.length ≤ start.perSecond.get
  /-- No index is out of bounds. -/
  deadline_ne_none : limit.deadline ≠ none

/-! ### What is retained -/

/-- The retained instants are the last of all instants, and the others have left the window. -/
structure Retains (perSecond : Nat) (instants sent : List Instant) : Prop where
  increasing : instants.Pairwise (· ≤ ·)
  spread : Spread perSecond window instants
  expired : ∃ old, instants = old ++ sent ∧
    ∀ t ∈ old, ∀ now, (∀ s ∈ instants, s ≤ now) → t + window ≤ now
  retained_le : sent.length ≤ perSecond

section Deadline

variable {limit : RateLimit τ} {slept : Option Instant} {now : Instant}

theorem deadline_of_lt (h : limit.sent.length < limit.perSecond.get) :
    limit.deadline = some none := by
  unfold RateLimit.deadline
  rw [if_neg (by omega)]

/-- At the cap, the first retained instant is the one to wait for. -/
theorem deadline_of_eq {oldest : Instant} {rest : List Instant}
    (hsent : limit.sent = oldest :: rest)
    (h : limit.sent.length = limit.perSecond.get) :
    limit.deadline = some (some (oldest + window)) := by
  have hindex : checkedSub limit.sent.length limit.perSecond.get = some 0 :=
    checkedSub_eq_some.mpr ⟨by omega, by omega⟩
  unfold RateLimit.deadline
  rw [if_pos (by omega), hindex, hsent]
  rfl

/-- Either the cap is not reached, or the window is full. -/
theorem deadline_cases (h : limit.sent.length ≤ limit.perSecond.get) :
    (limit.sent.length < limit.perSecond.get ∧ limit.deadline = some none) ∨
      ∃ oldest rest, limit.sent = oldest :: rest ∧ limit.sent.length = limit.perSecond.get ∧
        limit.deadline = some (some (oldest + window)) := by
  rcases Nat.lt_or_eq_of_le h with hlt | heq
  · exact Or.inl ⟨hlt, deadline_of_lt hlt⟩
  · cases hsent : limit.sent with
    | nil =>
      have := limit.perSecond.pos
      rw [hsent] at heq
      exact absurd heq.symm (Nat.ne_of_gt this)
    | cons oldest rest =>
      refine Or.inr ⟨oldest, rest, rfl, ?_, deadline_of_eq hsent heq⟩
      rw [← hsent]
      exact heq

/-- One more submission. -/
theorem Retains.submit {instants : List Instant}
    (h : Retains limit.perSecond.get instants limit.sent) (hdeadline : limit.deadline = some slept)
    (hnow : ∀ s ∈ instants, s ≤ now) (hslept : ∀ t, slept = some t → t ≤ now) :
    Retains limit.perSecond.get (instants ++ [now])
      ((limit.sent.dropWhile fun t => t + window ≤ now) ++ [now]) := by
  obtain ⟨old, hold, hexpired⟩ := h.expired
  have hpos := limit.perSecond.pos
  refine ⟨?_, ?_, ?_, ?_⟩
  · rw [List.pairwise_append]
    refine ⟨h.increasing, List.pairwise_singleton _ _, ?_⟩
    intro s hs t ht
    rw [List.mem_singleton.mp ht]
    exact hnow s hs
  · apply h.spread.concat hpos
    intro i x hi hx
    rw [hold] at hi hx
    rw [List.length_append] at hi
    rcases Nat.lt_or_ge i old.length with hlt | hge
    · -- an instant that is not retained has left the window
      rw [List.getElem?_append_left hlt] at hx
      exact hexpired x (List.mem_of_getElem? hx) now hnow
    · have hfull : i = old.length ∧ limit.sent.length = limit.perSecond.get := by
        have := h.retained_le
        omega
      rcases deadline_cases h.retained_le with ⟨hlt, -⟩ | ⟨oldest, rest, hsent, -, hd⟩
      · omega
      · rw [hfull.1, List.getElem?_append_right (Nat.le_refl _), Nat.sub_self, hsent] at hx
        obtain rfl := Option.some.inj hx
        exact hslept _ (Option.some.inj (hdeadline.symm.trans hd))
  · refine ⟨old ++ limit.sent.takeWhile fun t => t + window ≤ now, ?_, ?_⟩
    · rw [List.append_assoc, ← List.append_assoc (List.takeWhile _ _),
        List.takeWhile_append_dropWhile,
        hold, List.append_assoc]
    · intro t ht now' hnow'
      have hle : now ≤ now' := hnow' now (by simp)
      rcases List.mem_append.mp ht with ht | ht
      · exact Nat.le_trans (hexpired t ht now hnow) hle
      · have hleft := List.mem_takeWhile_imp ht
        rw [decide_eq_true_eq] at hleft
        exact Nat.le_trans hleft hle
  · rw [List.length_append, List.length_singleton]
    have hdrop : ∀ l : List Instant, (l.dropWhile fun t => t + window ≤ now).length ≤ l.length :=
      fun _ => (List.dropWhile_sublist _).length_le
    have hsent := hdrop limit.sent
    rcases deadline_cases h.retained_le with ⟨hlt, -⟩ | ⟨oldest, rest, heq, hlen, hd⟩
    · omega
    · have hle := hslept _ (Option.some.inj (hdeadline.symm.trans hd))
      have hrest := hdrop rest
      rw [heq, List.dropWhile_cons_of_pos (by simpa using hle)]
      rw [heq, List.length_cons] at hlen
      omega

end Deadline

section Waits

variable {limit : RateLimit τ} {log : List (Submission A)} {s : Submission A}
  {clock : Option Instant → Instant}

/-- What lies within the last second is retained. -/
theorem length_withinSecond {old sent : List Instant} {arrival : Instant}
    (hold : log.map Submission.instant = old ++ sent)
    (hexpired : ∀ t ∈ old, t + window ≤ arrival) :
    (withinSecond log arrival).length
      = (sent.filter fun t => decide (arrival < t + window)).length := by
  have hmap : (withinSecond log arrival).length
      = ((log.map Submission.instant).filter fun t => decide (arrival < t + window)).length := by
    rw [List.filter_map, List.length_map]
    rfl
  have hnil : (old.filter fun t => decide (arrival < t + window)) = [] := by
    rw [List.filter_eq_nil_iff]
    intro t ht
    rw [decide_eq_true_eq]
    exact Nat.not_lt_of_le (hexpired t ht)
  rw [hmap, hold, List.filter_append, hnil, List.nil_append]

/-- The first retained instant decides whether a call waits. -/
theorem Retains.waited_iff (h : Retains limit.perSecond.get (log.map Submission.instant) limit.sent)
    (hmonotone : ∀ s' ∈ log, s'.instant ≤ s.arrival) (hdeadline : limit.deadline = some s.slept) :
    s.Waited ↔ limit.perSecond.get ≤ (withinSecond log s.arrival).length := by
  obtain ⟨old, hold, hexpired⟩ := h.expired
  have hinstants : ∀ t ∈ log.map Submission.instant, t ≤ s.arrival := by
    intro t ht
    obtain ⟨s', hs', rfl⟩ := List.mem_map.mp ht
    exact hmonotone s' hs'
  rw [length_withinSecond hold fun t ht => hexpired t ht _ hinstants]
  unfold Submission.Waited
  rcases deadline_cases h.retained_le with ⟨hlt, hd⟩ | ⟨oldest, rest, hsent, hlen, hd⟩
  · have hslept : s.slept = none := Option.some.inj (hdeadline.symm.trans hd)
    have hle := List.length_filter_le (fun t => decide (s.arrival < t + window)) limit.sent
    rw [hslept]
    exact iff_of_false (fun ⟨t, ht, _⟩ => nomatch ht) (by omega)
  · have hslept : s.slept = some (oldest + window) := Option.some.inj (hdeadline.symm.trans hd)
    rw [hslept, ← hlen, hsent]
    constructor
    · rintro ⟨t, ht, hwait⟩
      obtain rfl := Option.some.inj ht
      -- the first retained instant is within the second, and so are those after it
      have hsorted := h.increasing
      rw [hold, hsent, List.pairwise_append] at hsorted
      have hall : (oldest :: rest).filter (fun t => decide (s.arrival < t + window))
          = oldest :: rest := by
        rw [List.filter_eq_self]
        intro t ht
        rw [decide_eq_true_eq]
        rcases List.mem_cons.mp ht with rfl | ht
        · exact hwait
        · have hle := (List.pairwise_cons.mp hsorted.2.1).1 t ht
          exact Nat.lt_of_lt_of_le hwait (Nat.add_le_add_right hle window)
      rw [hall]
    · intro hle
      refine ⟨_, rfl, ?_⟩
      by_contra hgone
      rw [List.filter_cons_of_neg (by simpa using Nat.le_of_not_lt hgone), List.length_cons] at hle
      have := List.length_filter_le (fun t => decide (s.arrival < t + window)) rest
      omega

/-- The first retained instant is the one `perSecond` places back. -/
theorem Retains.until_expired
    (h : Retains limit.perSecond.get (log.map Submission.instant) limit.sent)
    (htimely : Timely s.arrival clock) (hdeadline : limit.deadline = some s.slept)
    (hinstant : s.instant = clock s.slept) (hwaited : s.Waited) :
    ∃ i oldest, i + limit.perSecond.get = log.length ∧ log[i]? = some oldest ∧
      s.slept = some (oldest.instant + window) ∧ oldest.instant + window ≤ s.instant := by
  obtain ⟨old, hold, -⟩ := h.expired
  obtain ⟨t, ht, -⟩ := hwaited
  rcases deadline_cases h.retained_le with ⟨-, hd⟩ | ⟨oldest, rest, hsent, hlen, hd⟩
  · exact nomatch ht.symm.trans (Option.some.inj (hdeadline.symm.trans hd))
  · have hslept : s.slept = some (oldest + window) := Option.some.inj (hdeadline.symm.trans hd)
    have hget : (log.map Submission.instant)[old.length]? = some oldest := by
      rw [hold, hsent, List.getElem?_append_right (Nat.le_refl _), Nat.sub_self]
      rfl
    rw [List.getElem?_map] at hget
    obtain ⟨s', hs', rfl⟩ := Option.map_eq_some_iff.mp hget
    refine ⟨old.length, s', ?_, hs', hslept, ?_⟩
    · have hlength := congrArg List.length hold
      rw [List.length_map, List.length_append] at hlength
      omega
    · rw [hinstant, hslept]
      exact htimely.wakes _

end Waits

/-! ### Histories are limited -/

section Histories

variable [Executor τ A] {start limit : RateLimit τ} {log : List (Submission A)}

/-- A call that goes through keeps the cap, and hands its action to the executor. -/
theorem execute_eq_some {limit' : RateLimit τ} {clock : Option Instant → Instant} {action : A}
    {slept : Option Instant} {verdict : Except Error Unit} (hd : limit.deadline = some slept)
    (h : limit.execute clock action = some (verdict, limit')) :
    limit'.perSecond = limit.perSecond ∧
      limit'.sent = (limit.sent.dropWhile fun t => t + window ≤ clock slept) ++ [clock slept] ∧
      Executor.execute limit.executor action = (verdict, limit'.executor) := by
  unfold RateLimit.execute at h
  rw [hd] at h
  obtain ⟨rfl, rfl⟩ := Prod.mk.inj (Option.some.inj h)
  exact ⟨rfl, rfl, rfl⟩

/-- What is retained after every history. -/
theorem Submitted.retains (h : Submitted start log limit) (hstart : start.sent = []) :
    limit.perSecond = start.perSecond ∧
      Retains limit.perSecond.get (log.map Submission.instant) limit.sent := by
  induction h with
  | nil =>
    refine ⟨rfl, List.Pairwise.nil, Spread.nil, ⟨[], ?_, ?_⟩, ?_⟩
    · rw [hstart]
      rfl
    · intro t ht
      simp at ht
    · rw [hstart]
      exact Nat.zero_le _
  | @call log limit limit' action arrival clock slept verdict _ monotone timely deadline execute
      ih =>
    obtain ⟨hcap, hretains⟩ := ih
    obtain ⟨hcap', hsent, -⟩ := execute_eq_some deadline execute
    refine ⟨hcap'.trans hcap, ?_⟩
    rw [hcap', hsent, List.map_append]
    apply hretains.submit deadline
    · intro t ht
      obtain ⟨s, hs, rfl⟩ := List.mem_map.mp ht
      exact Nat.le_trans (monotone s hs) (timely.monotone slept)
    · intro t ht
      rw [ht]
      exact timely.wakes t

theorem Submitted.forwarded (h : Submitted start log limit) :
    executeAll start.executor (log.map Submission.action)
      = (log.map Submission.verdict, limit.executor) := by
  induction h with
  | nil => rfl
  | call _ _ _ deadline execute ih =>
    obtain ⟨-, -, hexecute⟩ := execute_eq_some deadline execute
    rw [List.map_append, List.map_append]
    show executeAll _ (_ ++ [_]) = _
    rw [executeAll_concat, ih, hexecute]
    rfl

theorem Submitted.waits (h : Submitted start log limit) (hstart : start.sent = []) :
    Always (WaitsForWindow start.perSecond.get) log := by
  induction h with
  | nil => exact Always.nil
  | call before monotone timely deadline _ ih =>
    obtain ⟨hcap, hretains⟩ := before.retains hstart
    apply ih.concat
    rw [← hcap]
    exact ⟨hretains.waited_iff monotone deadline, hretains.until_expired timely deadline rfl⟩

/-- Under a clock that does not run backwards, whenever the calls arrive, however long they take and
whatever the executor answers: no second holds more than `perSecond` submissions, and a call waits
only as long as it must. -/
theorem rate_limit_slides (executor : τ) (perSecond : NonZeroU32)
    (h : Submitted (RateLimit.new executor perSecond) log limit) :
    Limited (RateLimit.new executor perSecond) log limit := by
  obtain ⟨hcap, hretains⟩ := h.retains rfl
  rw [hcap] at hretains
  refine ⟨hretains.increasing, hretains.spread, ?_, h.forwarded, h.waits rfl, hretains.retained_le,
    ?_⟩
  · exact hretains.spread.length_filter_le hretains.increasing
  · rw [← hcap] at hretains
    rcases deadline_cases hretains.retained_le with ⟨-, hd⟩ | ⟨oldest, rest, -, -, hd⟩
    · rw [hd]
      exact Option.some_ne_none _
    · rw [hd]
      exact Option.some_ne_none _

end Histories

/-! ### One submission per second -/

/-- An executor that records its actions. -/
structure Recording (A : Type) where
  received : List A

instance {A : Type} : Executor (Recording A) A where
  execute executor action := (.ok (), ⟨executor.received ++ [action]⟩)

/-- A clock on which a call takes no time and a sleep ends on time. -/
def promptClock (arrival : Instant) (slept : Option Instant) : Instant := max arrival (slept.getD 0)

theorem timely_promptClock (arrival : Instant) : Timely arrival (promptClock arrival) :=
  ⟨fun _ => Nat.le_max_left _ _, fun _ => Nat.le_max_right _ _⟩

/-- Two calls in a row under a cap of one: the second one is submitted a second later. -/
theorem second_call_waits :
    ∃ (log : List (Submission Nat)) (limit : RateLimit (Recording Nat)),
      Submitted (RateLimit.new ⟨[]⟩ ⟨1, by decide, by decide⟩) log limit ∧
        log.map Submission.instant = [0, window] ∧
        Limited (RateLimit.new ⟨[]⟩ ⟨1, by decide, by decide⟩) log limit := by
  have hfirst : Submitted (RateLimit.new (⟨[]⟩ : Recording Nat) ⟨1, by decide, by decide⟩)
      [⟨7, 0, none, 0, .ok ()⟩] ⟨⟨[7]⟩, ⟨1, by decide, by decide⟩, [0]⟩ :=
    .call .nil (by simp) (timely_promptClock 0) rfl rfl
  have hsecond : Submitted (RateLimit.new (⟨[]⟩ : Recording Nat) ⟨1, by decide, by decide⟩)
      ([⟨7, 0, none, 0, .ok ()⟩] ++ [⟨8, 0, some window, window, .ok ()⟩])
      ⟨⟨[7, 8]⟩, ⟨1, by decide, by decide⟩, [window]⟩ :=
    .call hfirst (by simp) (timely_promptClock 0) rfl rfl
  exact ⟨_, _, hsecond, rfl, rate_limit_slides _ _ hsecond⟩

end ArtemisLight
