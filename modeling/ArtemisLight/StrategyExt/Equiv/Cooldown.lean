import ArtemisLight.Lib.Trace
import ArtemisLight.StrategyExt.Cooldown

/-!
# Cooling down

`Cooled` is a history of a cooldown: the events handed to it one after the other, and what passes of
each action stream.  An event's actions pass exactly if no action has passed within the duration
before the event, so the actions of two events that pass are at least the duration apart.
-/

namespace ArtemisLight

variable {S E A : Type} [TimedStrategy S E A]

/-- What comes of an event: the call of the strategy, the polls of its stream, and what passes. -/
structure Batch (E A : Type) where
  call : Handled E (Except Error (List A))
  polls : Nat
  passed : List (Instant × A)

/-- The actions that the strategy has computed and that are polled. -/
def Batch.polled (b : Batch E A) : List A := (b.call.reply.toOption.getD []).take b.polls

/-- A history of a cooldown. -/
inductive Cooled (start : Cooldown S) (since : Instant) :
    List (Batch E A) → Cooldown S → Instant → Prop
  | nil : Cooled start since [] start since
  /-- Time passes. -/
  | wait {log : List (Batch E A)} {cooldown : Cooldown S} {now later : Instant}
      (before : Cooled start since log cooldown now) (le : now ≤ later) :
      Cooled start since log cooldown later
  | event {log : List (Batch E A)} {cooldown cooldown' cooldown'' : Cooldown S}
      {clock clock' clock'' : Clock} {event : E}
      {reply : Except Error (Cooldown.ActionStream A)} {passed : List (Instant × A)} (polls : Nat)
      (before : Cooled start since log cooldown clock.now)
      (process : cooldown.processEvent clock event = (reply, cooldown', clock'))
      (consume : cooldown'.consume polls clock' reply = (passed, cooldown'', clock'')) :
      Cooled start since
        (log ++ [⟨⟨event, clock.now, reply.map Cooldown.ActionStream.actions, clock'.now⟩, polls,
          passed⟩]) cooldown'' clock''.now

/-! ### One event -/

omit [TimedStrategy S E A] in
theorem Cooldown.drain_suppressed (actions : List A) (cooldown : Cooldown S) (clock : Clock) :
    (drain true actions cooldown clock).1 = [] ∧
      (drain true actions cooldown clock).2.1 = cooldown ∧
      clock.now ≤ (drain true actions cooldown clock).2.2.now := by
  induction actions generalizing clock with
  | nil => exact ⟨rfl, rfl, Nat.le_refl _⟩
  | cons action actions ih =>
    obtain ⟨hpassed, hsame, hle⟩ := ih (clock.sleep 0)
    exact ⟨hpassed, hsame, Nat.le_trans (clock.le_sleep 0) hle⟩

omit [TimedStrategy S E A] in
/-- All actions pass, one after the other, and the last one is when the strategy last fired. -/
theorem Cooldown.drain_passing (actions : List A) (cooldown : Cooldown S) (clock : Clock)
    {passed : List (Instant × A)} {cooldown' : Cooldown S} {clock' : Clock}
    (h : drain false actions cooldown clock = (passed, cooldown', clock')) :
    passed.map Prod.snd = actions ∧ clock.now ≤ clock'.now ∧
      (∀ x ∈ passed, clock.now ≤ x.1 ∧ x.1 ≤ clock'.now) ∧
      cooldown'.strategy = cooldown.strategy ∧ cooldown'.duration = cooldown.duration ∧
      ((passed = [] ∧ cooldown'.lastFired = cooldown.lastFired) ∨
        ∃ x ∈ passed, cooldown'.lastFired = some x.1 ∧ ∀ y ∈ passed, y.1 ≤ x.1) := by
  induction actions generalizing cooldown clock passed cooldown' clock' with
  | nil =>
    obtain ⟨rfl, hrest⟩ := Prod.mk.inj h
    obtain ⟨rfl, rfl⟩ := Prod.mk.inj hrest
    exact ⟨rfl, Nat.le_refl _, by simp, rfl, rfl, Or.inl ⟨rfl, rfl⟩⟩
  | cons action actions ih =>
    -- the action fires at the instant of its poll, and the last one remains
    have hstep := clock.le_sleep 0
    simp only [drain, Bool.false_eq_true, if_false] at h
    rcases hd : drain false actions { cooldown with lastFired := some (clock.sleep 0).now }
      (clock.sleep 0) with ⟨passed', cooldown'', clock''⟩
    rw [hd] at h
    obtain ⟨rfl, hrest⟩ := Prod.mk.inj h
    obtain ⟨rfl, rfl⟩ := Prod.mk.inj hrest
    obtain ⟨hmap, hle, hmem, hstrategy, hduration, hfired⟩ := ih _ _ hd
    refine ⟨by rw [List.map_cons, hmap], Nat.le_trans hstep hle, fun x hx => ?_, hstrategy,
      hduration, Or.inr ?_⟩
    · rcases List.mem_cons.mp hx with rfl | hx
      · exact ⟨hstep, hle⟩
      · exact ⟨Nat.le_trans hstep (hmem x hx).1, (hmem x hx).2⟩
    · rcases hfired with ⟨rfl, hlast⟩ | ⟨x, hx, hlast, hmax⟩
      · exact ⟨_, List.mem_cons_self, hlast, by simp⟩
      · refine ⟨x, List.mem_cons_of_mem _ hx, hlast, fun y hy => ?_⟩
        rcases List.mem_cons.mp hy with rfl | hy
        · exact (hmem x hx).1
        · exact hmax y hy

/-- What comes of the stream of an event: `passed` at the polls from `clock` to `clock'`. -/
structure Consumed (cooldown cooldown' : Cooldown S) (clock clock' : Clock) (suppressed : Bool)
    (polled : List A) (passed : List (Instant × A)) : Prop where
  now_le : clock.now ≤ clock'.now
  strategy : cooldown'.strategy = cooldown.strategy
  duration : cooldown'.duration = cooldown.duration
  nothing : suppressed = true → passed = []
  everything : suppressed = false → passed.map Prod.snd = polled
  within : ∀ x ∈ passed, clock.now ≤ x.1 ∧ x.1 ≤ clock'.now
  fired : (passed = [] ∧ cooldown'.lastFired = cooldown.lastFired) ∨
    ∃ x ∈ passed, cooldown'.lastFired = some x.1 ∧ ∀ y ∈ passed, y.1 ≤ x.1

omit [TimedStrategy S E A] in
theorem Cooldown.consume_spec {cooldown cooldown' : Cooldown S} {clock clock' : Clock}
    {polls : Nat} {suppressed : Bool} {verdict : Except Error (List A)}
    {passed : List (Instant × A)}
    (h : cooldown.consume polls clock (verdict.map fun actions => ⟨actions, suppressed⟩)
      = (passed, cooldown', clock')) :
    Consumed cooldown cooldown' clock clock' suppressed ((verdict.toOption.getD []).take polls)
      passed := by
  cases verdict with
  | error e =>
    obtain ⟨rfl, hrest⟩ := Prod.mk.inj h
    obtain ⟨rfl, rfl⟩ := Prod.mk.inj hrest
    exact ⟨Nat.le_refl _, rfl, rfl, fun _ => rfl, fun _ => List.take_nil.symm, by simp,
      Or.inl ⟨rfl, rfl⟩⟩
  | ok actions =>
    change drain suppressed (actions.take polls) cooldown clock = _ at h
    cases suppressed with
    | true =>
      obtain ⟨hpassed, hsame, hle⟩ := Cooldown.drain_suppressed (actions.take polls) cooldown clock
      rw [h] at hpassed hsame hle
      simp only at hpassed hsame hle
      subst hpassed hsame
      exact ⟨hle, rfl, rfl, fun _ => rfl, by simp, by simp, Or.inl ⟨rfl, rfl⟩⟩
    | false =>
      obtain ⟨hmap, hle, hmem, hstrategy, hduration, hfired⟩ := Cooldown.drain_passing _ _ _ h
      exact ⟨hle, hstrategy, hduration, by simp, fun _ => hmap, hmem, hfired⟩

/-- The strategy is called once, and its actions are suppressed if the cooldown was cooling when the
event came. -/
theorem Cooldown.processEvent_cases {cooldown cooldown' : Cooldown S} {clock clock' : Clock}
    {event : E} {reply : Except Error (ActionStream A)}
    (h : cooldown.processEvent clock event = (reply, cooldown', clock')) :
    ∃ (verdict : Except Error (List A)) (strategy : S),
      Timed.call cooldown.strategy clock event = (verdict, strategy, clock') ∧
      cooldown' = { cooldown with strategy } ∧
      reply = verdict.map (fun actions => ⟨actions, cooldown.cooling clock.now⟩) ∧
      reply.map ActionStream.actions = verdict := by
  unfold Cooldown.processEvent at h
  rcases hcall : (Timed.call cooldown.strategy clock event : Except Error (List A) × S × Clock)
    with ⟨e | actions, strategy, clock₁⟩
  all_goals
    rw [hcall] at h
    obtain ⟨rfl, hrest⟩ := Prod.mk.inj h
    obtain ⟨rfl, rfl⟩ := Prod.mk.inj hrest
    exact ⟨_, _, rfl, rfl, rfl, rfl⟩

/-! ### Every history -/

/-- Something has passed within the duration before an instant. -/
def FiredWithin (duration : Duration) (log : List (Batch E A)) (now : Instant) : Prop :=
  ∃ b ∈ log, ∃ x ∈ b.passed, now < x.1 + duration

/-- What the history says of the cooldown. -/
structure Mirrors (duration : Duration) (log : List (Batch E A)) (cooldown : Cooldown S)
    (now : Instant) : Prop where
  duration_eq : cooldown.duration = duration
  past : ∀ b ∈ log, ∀ x ∈ b.passed, x.1 ≤ now
  none_passed : cooldown.lastFired = none → ∀ b ∈ log, b.passed = []
  last : ∀ fired, cooldown.lastFired = some fired → (∃ b ∈ log, ∃ x ∈ b.passed, x.1 = fired) ∧
    ∀ b ∈ log, ∀ x ∈ b.passed, x.1 ≤ fired

omit [TimedStrategy S E A] in
/-- Cooling is having fired. -/
theorem Mirrors.cooling_iff {duration : Duration} {log : List (Batch E A)} {cooldown : Cooldown S}
    {now : Instant} (h : Mirrors duration log cooldown now) :
    cooldown.cooling now = true ↔ FiredWithin duration log now := by
  unfold Cooldown.cooling
  cases hl : cooldown.lastFired with
  | none =>
    refine iff_of_false (by simp) ?_
    rintro ⟨b, hb, x, hx, -⟩
    rw [h.none_passed hl b hb] at hx
    exact absurd hx (by simp)
  | some fired =>
    obtain ⟨⟨b, hb, x, hx, rfl⟩, hmax⟩ := h.last fired hl
    have hle := h.past b hb x hx
    simp only [decide_eq_true_eq, h.duration_eq]
    constructor
    · intro hlt
      exact ⟨b, hb, x, hx, (Nat.sub_lt_iff_lt_add' hle).mp hlt⟩
    -- nothing has passed after the last firing
    · rintro ⟨b', hb', y, hy, hlt⟩
      have hyx := Nat.add_le_add_right (hmax b' hb' y hy) duration
      exact (Nat.sub_lt_iff_lt_add' hle).mpr (Nat.lt_of_lt_of_le hlt hyx)

omit [TimedStrategy S E A] in
/-- What passes of an event is not earlier than what has passed before it. -/
theorem Mirrors.event {duration : Duration} {log : List (Batch E A)}
    {cooldown cooldown' : Cooldown S} {strategy : S} {clock clock' clock'' : Clock}
    {suppressed : Bool} {polled : List A} {b : Batch E A}
    (h : Mirrors duration log cooldown clock.now) (hnow : clock.now ≤ clock'.now)
    (hc : Consumed { cooldown with strategy } cooldown' clock' clock'' suppressed polled b.passed) :
    Mirrors duration (log ++ [b]) cooldown' clock''.now := by
  have hearlier : ∀ b' ∈ log, ∀ x ∈ b'.passed, ∀ y ∈ b.passed, x.1 ≤ y.1 := fun b' hb x hx y hy =>
    Nat.le_trans (h.past b' hb x hx) (Nat.le_trans hnow (hc.within y hy).1)
  refine ⟨hc.duration.trans h.duration_eq, fun b' hb x hx => ?_, fun hl b' hb => ?_,
    fun fired hl => ?_⟩
  · rcases List.mem_append.mp hb with hb | hb
    · exact Nat.le_trans (h.past b' hb x hx) (Nat.le_trans hnow hc.now_le)
    · obtain rfl := List.mem_singleton.mp hb
      exact (hc.within x hx).2
  · rcases hc.fired with ⟨hnil, hsame⟩ | ⟨_, _, hlast, _⟩
    · rcases List.mem_append.mp hb with hb | hb
      · exact h.none_passed (hsame.symm.trans hl) b' hb
      · obtain rfl := List.mem_singleton.mp hb
        exact hnil
    · exact absurd (hl.symm.trans hlast) (by simp)
  · rcases hc.fired with ⟨hnil, hsame⟩ | ⟨x, hx, hlast, hmax⟩
    · obtain ⟨⟨b', hb, hfired⟩, hmax⟩ := h.last fired (hsame.symm.trans hl)
      refine ⟨⟨b', List.mem_append_left _ hb, hfired⟩, fun b' hb y hy => ?_⟩
      rcases List.mem_append.mp hb with hb | hb
      · exact hmax b' hb y hy
      · obtain rfl := List.mem_singleton.mp hb
        rw [hnil] at hy
        exact absurd hy (by simp)
    · obtain rfl := Option.some.inj (hlast.symm.trans hl)
      refine ⟨⟨_, List.mem_append_right _ List.mem_cons_self, x, hx, rfl⟩, fun b' hb y hy => ?_⟩
      rcases List.mem_append.mp hb with hb | hb
      · exact hearlier b' hb y hy x hx
      · obtain rfl := List.mem_singleton.mp hb
        exact hmax y hy

/-- What passes of an event: everything that is polled, after what passed before, unless something
has passed within the duration before it. -/
structure CoolsDown (duration : Duration) (past : List (Batch E A)) (b : Batch E A) : Prop where
  suppressed : FiredWithin duration past b.call.start → b.passed = []
  passes : ¬ FiredWithin duration past b.call.start → b.passed.map Prod.snd = b.polled
  spaced : ∀ b' ∈ past, ∀ x ∈ b'.passed, ∀ y ∈ b.passed, x.1 + duration ≤ y.1

theorem Cooled.tracks {start cooldown : Cooldown S} {since now : Instant} {log : List (Batch E A)}
    (h : Cooled start since log cooldown now) (hstart : start.lastFired = none) :
    Mirrors start.duration log cooldown now ∧ Always (CoolsDown start.duration) log ∧
      Calls start.strategy since (log.map Batch.call) cooldown.strategy now := by
  induction h with
  | nil =>
    refine ⟨⟨rfl, by simp, by simp, fun fired hf => ?_⟩, Always.nil, .nil⟩
    exact absurd (hstart.symm.trans hf) (by simp)
  | wait _ le ih =>
    obtain ⟨htracks, hcools, hcalls⟩ := ih
    exact ⟨⟨htracks.duration_eq, fun b hb x hx => Nat.le_trans (htracks.past b hb x hx) le,
      htracks.none_passed, htracks.last⟩, hcools, hcalls.wait le⟩
  | @event log cooldown cooldown' cooldown'' clock clock' clock'' event reply passed polls before
      process consume ih =>
    obtain ⟨htracks, hcools, hcalls⟩ := ih
    have hcooling := htracks.cooling_iff
    obtain ⟨verdict, strategy, hcall, rfl, hreply, hmap⟩ := Cooldown.processEvent_cases process
    have hnow : clock.now ≤ clock'.now := by
      have := Timed.now_le cooldown.strategy clock event
      rwa [hcall] at this
    rw [hreply] at consume
    have hconsumed := Cooldown.consume_spec consume
    rw [hmap]
    refine ⟨htracks.event hnow hconsumed, hcools.concat ⟨fun hfired => ?_, fun hfired => ?_,
      fun b hb x hx y hy => ?_⟩, ?_⟩
    · exact hconsumed.nothing (hcooling.mpr hfired)
    · exact hconsumed.everything (Bool.eq_false_iff.mpr fun hc => hfired (hcooling.mp hc))
    · -- nothing passes unless the duration is over
      have hover : ¬ FiredWithin start.duration log clock.now := by
        intro hfired
        rw [hconsumed.nothing (hcooling.mpr hfired)] at hy
        exact absurd hy (by simp)
      have hgap : x.1 + start.duration ≤ clock.now :=
        Nat.le_of_not_lt fun hlt => hover ⟨b, hb, x, hx, hlt⟩
      exact Nat.le_trans hgap (Nat.le_trans hnow (hconsumed.within y hy).1)
    · rw [List.map_append, hconsumed.strategy]
      exact (hcalls.call hcall).wait hconsumed.now_le

/-- The strategy processes every event, in order, as if there were no cooldown; an event's actions
all pass if nothing has passed within the duration before it, and none does otherwise, which leaves
the cooldown as it is; so what passes of two events is at least the duration apart. -/
theorem cooldown_spaces {start cooldown : Cooldown S} {since now : Instant}
    {log : List (Batch E A)} (h : Cooled start since log cooldown now)
    (hstart : start.lastFired = none) :
    Always (CoolsDown start.duration) log ∧
      Calls start.strategy since (log.map Batch.call) cooldown.strategy now := by
  obtain ⟨-, hcools, hcalls⟩ := h.tracks hstart
  exact ⟨hcools, hcalls⟩

/-- A strategy that offers each event twice. -/
structure Echo where

def Echo.processEvent (echo : Echo) (clock : Clock) (event : Nat) :
    Except Error (List Nat) × Echo × Clock :=
  (.ok [event, event], echo, clock.sleep 5)

theorem Echo.now_le (echo : Echo) (clock : Clock) (event : Nat) :
    clock.now ≤ (echo.processEvent clock event).2.2.now :=
  Nat.le_of_add_right_le (clock.le_sleep 5)

instance : TimedStrategy Echo Nat Nat := ⟨Echo.processEvent, Echo.now_le⟩

/-- The second event comes too early. -/
theorem cooldown_spaces_echo : ∃ (log : List (Batch Nat Nat)) (cooldown : Cooldown Echo),
    log.map Batch.passed = [[(17, 7), (18, 7)], []] ∧ Always (CoolsDown 50) log ∧
      Calls (Echo.mk) 10 (log.map Batch.call) cooldown.strategy 38 := by
  have hprocess : (Cooldown.new Echo.mk 50).processEvent (.lateBy 1 10) 7
      = (.ok ⟨[7, 7], false⟩, Cooldown.new Echo.mk 50, .lateBy 1 16) := rfl
  have hconsume : (Cooldown.new Echo.mk 50).consume 9 (.lateBy 1 16) (.ok ⟨[7, 7], false⟩)
      = ([(17, 7), (18, 7)], ⟨Echo.mk, 50, some 18⟩, .lateBy 1 18) := rfl
  have hprocess' : (Cooldown.mk Echo.mk 50 (some 18)).processEvent (.lateBy 1 30) 8
      = (.ok ⟨[8, 8], true⟩, ⟨Echo.mk, 50, some 18⟩, .lateBy 1 36) := rfl
  have hconsume' : (Cooldown.mk Echo.mk 50 (some 18)).consume 9 (.lateBy 1 36)
      (.ok ⟨[8, 8], true⟩) = ([], ⟨Echo.mk, 50, some 18⟩, .lateBy 1 38) := rfl
  have hfirst := Cooled.event 9 .nil hprocess hconsume
  have hboth := Cooled.event 9 (hfirst.wait (by decide : 18 ≤ (Clock.lateBy 1 30).now))
    hprocess' hconsume'
  exact ⟨_, _, rfl, cooldown_spaces hboth rfl⟩

end ArtemisLight
