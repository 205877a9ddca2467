import ArtemisLight.Collectors.ChannelCollector
import ArtemisLight.ExecutorExt.Equiv.Stack
import ArtemisLight.Lib.Broadcast

/-!
# Verdicts as events

Every verdict comes back at most once, in the order in which the actions were executed, and as
`execute` returned it; none is lost as long as the channel can hold them all and the collector stays
subscribed.
-/

namespace ArtemisLight

namespace ChannelCollector

variable {C : Channel} {α : Type} {sender : C.Of α} {capacity : Nat} {history : List α}
  {stream stream' : C.Receiver} {item : α}

/-- The stream yields the next message that is kept. -/
theorem next_cases (hc : C.Holds capacity history sender) (hle : C.next stream ≤ history.length)
    (h : ChannelCollector.next sender stream = some (item, stream')) :
    ∃ i, C.next stream ≤ i ∧ history[i]? = some item ∧ C.next stream' = i + 1 ∧
      (history.length ≤ capacity → i = C.next stream) := by
  have hitem : ∀ {s : C.Receiver}, C.next s ≤ history.length →
      C.recv sender s = some (.item item, stream') →
        history[C.next s]? = some item ∧ C.next stream' = C.next s + 1 := by
    intro s hs hrecv
    rcases hc.recv hs with ⟨-, hn⟩ | ⟨a, _, -, ha, hnext, hr⟩ | ⟨n, _, -, -, -, hr⟩
    · exact absurd (hn.symm.trans hrecv) (by simp)
    · obtain ⟨heq, rfl⟩ := Prod.mk.inj (Option.some.inj (hr.symm.trans hrecv))
      obtain rfl := Received.item.inj heq
      exact ⟨ha, hnext⟩
    · exact absurd (hr.symm.trans hrecv) (by simp)
  unfold next at h
  split at h
  · exact absurd h (by simp)
  · rename_i item' stream'' hrecv
    obtain ⟨rfl, rfl⟩ := Prod.mk.inj (Option.some.inj h)
    obtain ⟨hget, hnext⟩ := hitem hle hrecv
    exact ⟨C.next stream, Nat.le_refl _, hget, hnext, fun _ => rfl⟩
  · rename_i n lagged hrecv
    split at h
    · rename_i item' stream'' hrecv'
      obtain ⟨rfl, rfl⟩ := Prod.mk.inj (Option.some.inj h)
      obtain ⟨hlt, hle'⟩ := hc.next_lt hle hrecv
      obtain ⟨hget, hnext⟩ := hitem hle' hrecv'
      refine ⟨C.next lagged, Nat.le_of_lt hlt, hget, hnext, fun hroom => ?_⟩
      rcases hc.recv hle with ⟨-, hr⟩ | ⟨_, _, -, -, -, hr⟩ | ⟨n', _, hpos, hlen, -⟩
      · exact absurd (hr.symm.trans hrecv) (by simp)
      · exact absurd (hr.symm.trans hrecv) (by simp)
      · omega
    · exact absurd h (by simp)

/-- Nothing is there only if the stream has passed everything, as long as the channel can hold
everything. -/
theorem next_none (hc : C.Holds capacity history sender) (hle : C.next stream ≤ history.length)
    (hroom : history.length ≤ capacity) (h : ChannelCollector.next sender stream = none) :
    C.next stream = history.length := by
  unfold next at h
  rcases hc.recv hle with ⟨hn, -⟩ | ⟨a, _, -, -, -, hr⟩ | ⟨n, _, hpos, hlen, -⟩
  · exact hn
  · rw [hr] at h
    exact absurd h (by simp)
  · omega

end ChannelCollector

namespace Feedback

variable {C : Channel} {τ A : Type}

/-- The verdict of an `execute`, as it would be published. -/
def Happening.outcome? : Happening A → Option (ExecutionOutcome A)
  | .executed action verdict => some ⟨action, verdict⟩
  | .event _ => none

/-- The event of the collector. -/
def Happening.event? : Happening A → Option (ExecutionOutcome A)
  | .executed _ _ => none
  | .event outcome => some outcome

/-- The act is not a subscription. -/
def Act.staysSubscribed : Act A → Bool
  | .subscribe => false
  | _ => true

/-- The loop after `h` has been seen; `whole` says that the collector has stayed subscribed. -/
structure Consistent (capacity : Nat) (whole : Prop) (h : List (Happening A))
    (feedback : Feedback C τ A) : Prop where
  holds : C.Holds capacity (h.filterMap Happening.outcome?) feedback.report.outcomes
  le : C.next feedback.stream ≤ (h.filterMap Happening.outcome?).length
  sublist : (h.filterMap Happening.event?).Sublist
    ((h.filterMap Happening.outcome?).take (C.next feedback.stream))
  all : whole → (h.filterMap Happening.outcome?).length ≤ capacity →
    h.filterMap Happening.event? = (h.filterMap Happening.outcome?).take (C.next feedback.stream)

variable [TimedExecutor τ A] {capacity : Nat} {whole : Prop} {h h' : List (Happening A)}
  {feedback feedback' : Feedback C τ A}

theorem Consistent.step {act : Act A} (hc : Consistent capacity whole h feedback)
    (hwhole : whole → act.staysSubscribed = true) (hstep : feedback.step act = (h', feedback')) :
    Consistent capacity whole (h ++ h') feedback' := by
  cases act with
  | execute clock action =>
    rcases hcall : Timed.call feedback.report.executor clock action with ⟨verdict, executor, clock'⟩
    simp only [Feedback.step, Report.execute, hcall] at hstep
    obtain ⟨rfl, rfl⟩ := Prod.mk.inj hstep
    have houtcomes : (h ++ [Happening.executed action verdict]).filterMap Happening.outcome?
        = h.filterMap Happening.outcome? ++ [⟨action, verdict⟩] := List.filterMap_append
    have hevents : (h ++ [Happening.executed action verdict]).filterMap Happening.event?
        = h.filterMap Happening.event? := by
      rw [List.filterMap_append]
      exact List.append_nil _
    -- the receiver has not passed the new outcome
    refine ⟨?_, ?_, ?_, ?_⟩
    · rw [houtcomes]
      exact hc.holds.send _
    · rw [houtcomes, List.length_append]
      exact Nat.le_add_right_of_le hc.le
    · rw [houtcomes, hevents, List.take_append_of_le_length hc.le]
      exact hc.sublist
    · intro hw hlen
      rw [houtcomes, List.length_append] at hlen
      rw [houtcomes, hevents, List.take_append_of_le_length hc.le]
      exact hc.all hw (Nat.le_of_add_right_le hlen)
  | next =>
    unfold Feedback.step at hstep
    simp only at hstep
    split at hstep
    · rename_i outcome stream hnext
      obtain ⟨rfl, rfl⟩ := Prod.mk.inj hstep
      obtain ⟨i, hi, hget, hmoved, hnone⟩ := ChannelCollector.next_cases hc.holds hc.le hnext
      have houtcomes : (h ++ [Happening.event outcome]).filterMap Happening.outcome?
          = h.filterMap Happening.outcome? := by
        rw [List.filterMap_append]
        exact List.append_nil _
      have hevents : (h ++ [Happening.event outcome]).filterMap Happening.event?
          = h.filterMap Happening.event? ++ [outcome] := List.filterMap_append
      -- it has passed the outcomes up to the one that it is given
      have htake : (h.filterMap Happening.outcome?).take (C.next stream)
          = (h.filterMap Happening.outcome?).take i ++ [outcome] := by
        rw [hmoved, List.take_add_one, hget]
        rfl
      refine ⟨?_, ?_, ?_, ?_⟩
      · rw [houtcomes]
        exact hc.holds
      · rw [houtcomes]
        show C.next stream ≤ _
        rw [hmoved]
        exact (List.getElem?_eq_some_iff.mp hget).1
      · rw [houtcomes, hevents]
        show List.Sublist _ (List.take (C.next stream) _)
        rw [htake]
        exact (hc.sublist.trans (List.take_sublist_take_left hi)).append (List.Sublist.refl _)
      · intro hw hlen
        rw [houtcomes] at hlen
        rw [houtcomes, hevents]
        show _ = List.take (C.next stream) _
        rw [htake, hnone hlen, hc.all hw hlen]
    · obtain ⟨rfl, rfl⟩ := Prod.mk.inj hstep
      rw [List.append_nil]
      exact hc
  | subscribe =>
    unfold Feedback.step at hstep
    obtain ⟨rfl, rfl⟩ := Prod.mk.inj hstep
    rw [List.append_nil]
    -- the new receiver has passed everything, whatever it was given
    have hsent : C.next (ChannelCollector.subscribe feedback.report.outcomes)
        = (h.filterMap Happening.outcome?).length := hc.holds.subscribe
    refine ⟨hc.holds, Nat.le_of_eq hsent, ?_, fun hw => ?_⟩
    · rw [hsent, List.take_length]
      exact hc.sublist.trans (List.take_sublist _ _)
    · exact absurd (hwhole hw) (by simp [Act.staysSubscribed])

theorem Consistent.run {acts : List (Act A)} (hc : Consistent capacity whole h feedback)
    (hwhole : whole → ∀ act ∈ acts, act.staysSubscribed = true)
    (hrun : feedback.run acts = (h', feedback')) :
    Consistent capacity whole (h ++ h') feedback' := by
  induction acts generalizing h h' feedback with
  | nil =>
    obtain ⟨rfl, rfl⟩ := Prod.mk.inj hrun
    rwa [List.append_nil]
  | cons act acts ih =>
    unfold Feedback.run at hrun
    rcases hs : feedback.step act with ⟨x, next⟩
    rcases hr : next.run acts with ⟨xs, last⟩
    rw [hs] at hrun
    simp only [hr] at hrun
    obtain ⟨rfl, rfl⟩ := Prod.mk.inj hrun
    rw [← List.append_assoc]
    exact ih (hc.step (fun hw => hwhole hw act List.mem_cons_self) hs)
      (fun hw a ha => hwhole hw a (List.mem_cons_of_mem _ ha)) hr

/-- Whatever the executor, and whenever the collector polls or subscribes again: the events are the
verdicts that `execute` returned, in order and each at most once; and as long as the collector stays
subscribed and the channel can hold everything, they are the first ones, and all of them when
nothing is left in the channel. -/
theorem verdicts_feed_back (executor : τ) (capacity : Nat) (acts : List (Act A)) :
    let (h, feedback) := (Feedback.start executor capacity : Feedback C τ A).run acts
    (h.filterMap Happening.event?).Sublist (h.filterMap Happening.outcome?) ∧
    ((∀ act ∈ acts, act.staysSubscribed = true) →
      (h.filterMap Happening.outcome?).length ≤ capacity →
        h.filterMap Happening.event? <+: h.filterMap Happening.outcome? ∧
        (ChannelCollector.next feedback.report.outcomes feedback.stream = none →
          h.filterMap Happening.event? = h.filterMap Happening.outcome?)) := by
  rcases hrun : (Feedback.start executor capacity : Feedback C τ A).run acts with ⟨h, feedback⟩
  have hstart : Consistent capacity (∀ act ∈ acts, act.staysSubscribed = true) []
      (Feedback.start executor capacity : Feedback C τ A) :=
    ⟨.new _, Nat.le_of_eq (Channel.Holds.new capacity).subscribe, List.nil_sublist _,
      fun _ _ => List.take_nil.symm⟩
  have hc := hstart.run id hrun
  rw [List.nil_append] at hc
  refine ⟨hc.sublist.trans (List.take_sublist _ _), fun hw hlen => ⟨?_, fun hnone => ?_⟩⟩
  · rw [hc.all hw hlen]
    exact List.take_prefix _ _
  · have hpassed := ChannelCollector.next_none hc.holds hc.le hlen hnone
    rw [hc.all hw hlen, hpassed, List.take_length]

/-- Two verdicts are reported before the collector polls, and a third one after it has found nothing
more. -/
def feedbackActs : List (Act Nat) :=
  [.execute (.lateBy 0 1000) 7, .execute (.lateBy 0 2000) 8, .next, .next, .next,
    .execute (.lateBy 0 3000) 9, .next]

theorem verdicts_feed_back_flaky : ∃ h feedback,
    (Feedback.start (Flaky.mk 1) 4 : Feedback Broadcast.channel Flaky Nat).run feedbackActs
      = (h, feedback) ∧
    h.filterMap Happening.outcome? = [⟨7, .error "down"⟩, ⟨8, .ok ()⟩, ⟨9, .ok ()⟩] ∧
    h.filterMap Happening.event? = h.filterMap Happening.outcome? := by
  have hrun := verdicts_feed_back (C := Broadcast.channel) (Flaky.mk 1) 4 feedbackActs
  exact ⟨_, _, rfl, rfl, (hrun.2 (by decide) (by decide)).2 rfl⟩

end Feedback

end ArtemisLight
