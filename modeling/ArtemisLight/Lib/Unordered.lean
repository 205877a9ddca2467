import Mathlib.Data.List.Perm.Basic

/-!
# Bounded concurrency

Items come in from a source that may end.  Each of them is the argument of an asynchronous call;
the calls are started in order, at most `cap` of them at once, and their answers are handed out in
the order in which they come, if they are kept.  Nothing is assumed of when the items and the
answers come.

`Unordered` is where the items are at any time, and `BufferUnordered` is what the users of such a
stream of answers rely on, whatever it is made of: how each operation moves the items.
-/

namespace ArtemisLight

/-- What a poll of a stream gives. -/
inductive Yield (γ : Type*) where
  | item (x : γ)
  | ended
  | pending
  deriving DecidableEq

/-- Where the items are.  A call is in progress until its answer has been taken. -/
structure Unordered (α β : Type*) where
  cap : Nat
  /-- The items that have come in and whose calls have not been started. -/
  queue : List α
  /-- Whether the source has ended. -/
  closed : Bool
  /-- The calls that have not been answered, oldest first. -/
  running : List α
  /-- The answers that have not been taken, oldest first. -/
  ready : List (α × β)
  deriving DecidableEq

namespace Unordered

/-- What happens to the calls. -/
inductive Event (α β : Type*) where
  | arrived (x : α)
  | started (x : α)
  | answered (x : α) (y : β)
  | taken (x : α) (y : β)
  | ended
  deriving DecidableEq

/-- What is done with a stream of answers. -/
inductive Act (α β : Type*) where
  /-- Some items come in at once. -/
  | arrive (xs : List α)
  /-- The source ends. -/
  | close
  /-- One of the calls is answered. -/
  | answer (i : Nat) (y : β)
  | poll
  deriving DecidableEq

section Queries

variable {α β : Type*}

def arrived? : Event α β → Option α
  | .arrived x => some x
  | _ => none

def started? : Event α β → Option α
  | .started x => some x
  | _ => none

def answered? : Event α β → Option (α × β)
  | .answered x y => some (x, y)
  | _ => none

def taken? : Event α β → Option (α × β)
  | .taken x y => some (x, y)
  | _ => none

end Queries

section Machine

variable {α β γ : Type*}

def new (cap : Nat) : Unordered α β := ⟨cap, [], false, [], []⟩

def inProgress (s : Unordered α β) : Nat := s.running.length + s.ready.length

/-- How many calls are started next. -/
def room (s : Unordered α β) : Nat := s.cap - s.inProgress

/-- Start as many calls as there is room for. -/
def fill (s : Unordered α β) : List (Event α β) × Unordered α β :=
  ((s.queue.take s.room).map .started,
    { s with queue := s.queue.drop s.room, running := s.running ++ s.queue.take s.room })

/-- Whether nothing is left to come. -/
def idle (s : Unordered α β) : Bool := s.running.isEmpty && s.queue.isEmpty && s.closed

def arrive (s : Unordered α β) (xs : List α) : Unordered α β := { s with queue := s.queue ++ xs }

def close (s : Unordered α β) : Unordered α β := { s with closed := true }

/-- The call of the item `x`, which is the `i`-th one, is answered. -/
def answer (s : Unordered α β) (i : Nat) (x : α) (y : β) : Unordered α β :=
  { s with running := s.running.eraseIdx i, ready := s.ready ++ [(x, y)] }

end Machine

end Unordered

open Unordered in
/-- The operations of a stream of answers of which `f` keeps some, and its laws. -/
structure BufferUnordered (α β γ : Type) where
  Stream : Type
  new (cap : Nat) : Stream
  arrive (s : Stream) (xs : List α) : Stream
  close (s : Stream) : Stream
  answer (s : Stream) (i : Nat) (y : β) : Stream
  poll (f : α × β → Option γ) (s : Stream) : Yield γ × List (Event α β) × Stream
  view : Stream → Unordered α β
  view_new (cap : Nat) : view (new cap) = .new cap
  view_arrive (s : Stream) (xs : List α) :
    (view s).closed = false → view (arrive s xs) = (view s).arrive xs
  view_close (s : Stream) : view (close s) = (view s).close
  view_answer (s : Stream) (i : Nat) (x : α) (y : β) :
    (view s).running[i]? = some x → view (answer s i y) = (view s).answer i x y
  /-- The first answer that is ready is given, if it is kept.  Before that, calls are started. -/
  poll_kept (f : α × β → Option γ) (s : Stream) (x : α) (y : β) (z : γ) (ready : List (α × β)) :
    (view s).ready = (x, y) :: ready → f (x, y) = some z → ∃ s',
      poll f s = (.item z, (view s).fill.1 ++ [.taken x y], s') ∧
        view s' = { (view s).fill.2 with ready }
  /-- One that is not kept is taken, and the poll goes on. -/
  poll_dropped (f : α × β → Option γ) (s : Stream) (x : α) (y : β) (ready : List (α × β)) :
    (view s).ready = (x, y) :: ready → f (x, y) = none → ∃ s',
      poll f s = ((poll f s').1, (view s).fill.1 ++ .taken x y :: (poll f s').2.1,
        (poll f s').2.2) ∧
        view s' = { (view s).fill.2 with ready }
  /-- If none is ready, the stream ends when nothing is left to come. -/
  poll_ended (f : α × β → Option γ) (s : Stream) :
    (view s).ready = [] → (view s).fill.2.idle = true → ∃ s',
      poll f s = (.ended, (view s).fill.1 ++ [.ended], s') ∧ view s' = (view s).fill.2
  poll_pending (f : α × β → Option γ) (s : Stream) :
    (view s).ready = [] → (view s).fill.2.idle = false → ∃ s',
      poll f s = (.pending, (view s).fill.1, s') ∧ view s' = (view s).fill.2

namespace BufferUnordered

open Unordered

variable {α β γ : Type} {B : BufferUnordered α β γ}

/-- What is done, if it can be; with what a poll gives, if it is one. -/
def step (f : α × β → Option γ) (s : B.Stream) :
    Act α β → Option (Option (Yield γ) × List (Event α β) × B.Stream)
  | .arrive xs =>
    if (B.view s).closed then none else some (none, xs.map .arrived, B.arrive s xs)
  | .close => some (none, [], B.close s)
  | .answer i y =>
    match (B.view s).running[i]? with
    | none => none
    | some x => some (none, [.answered x y], B.answer s i y)
  | .poll =>
    let (polled, events, s) := B.poll f s
    some (some polled, events, s)

/-- What the polls give, what happens to the calls, and the state after it. -/
def run (f : α × β → Option γ) (s : B.Stream) :
    List (Act α β) → Option (List (Yield γ) × List (Event α β) × B.Stream)
  | [] => some ([], [], s)
  | act :: acts => do
    let (polled, events, s) ← B.step f s act
    let (polls, events', s) ← run f s acts
    return (polled.toList ++ polls, events ++ events', s)

end BufferUnordered

namespace Unordered

/-! ### What holds of every run -/

section Runs

variable {α β γ : Type*} {f : α × β → Option γ} {h : List (Event α β)} {s : Unordered α β}

/-- What has been given. -/
def given? : Yield γ → Option γ
  | .item z => some z
  | _ => none

/-- Where the items are: each that has come in waits for its call, or its call is running, or
answered, and no answer is lost or taken twice. -/
structure Consistent (h : List (Event α β)) (s : Unordered α β) : Prop where
  bounded : s.inProgress ≤ s.cap
  arrived : h.filterMap arrived? = h.filterMap started? ++ s.queue
  started : (h.filterMap started?).Perm ((h.filterMap answered?).map Prod.fst ++ s.running)
  answered : h.filterMap answered? = h.filterMap taken? ++ s.ready
  ended : .ended ∈ h → s.idle = true ∧ s.ready = []

theorem Consistent.new (cap : Nat) : Consistent ([] : List (Event α β)) (new cap) :=
  ⟨Nat.zero_le _, rfl, .nil, rfl, by simp⟩

theorem idle_iff : s.idle = true ↔ s.running = [] ∧ s.queue = [] ∧ s.closed = true := by
  simp [idle, and_assoc]

theorem filterMap_starts (xs : List α) :
    (xs.map (.started : α → Event α β)).filterMap arrived? = [] ∧
      (xs.map (.started : α → Event α β)).filterMap started? = xs ∧
      (xs.map (.started : α → Event α β)).filterMap answered? = [] ∧
      (xs.map (.started : α → Event α β)).filterMap taken? = [] := by
  induction xs with
  | nil => simp
  | cons x xs ih =>
    simpa [arrived?, started?, answered?, taken?] using ih

theorem filterMap_arrivals (xs : List α) :
    (xs.map (.arrived : α → Event α β)).filterMap arrived? = xs ∧
      (xs.map (.arrived : α → Event α β)).filterMap started? = [] ∧
      (xs.map (.arrived : α → Event α β)).filterMap answered? = [] ∧
      (xs.map (.arrived : α → Event α β)).filterMap taken? = [] := by
  induction xs with
  | nil => simp
  | cons x xs ih =>
    simpa [arrived?, started?, answered?, taken?] using ih

theorem Consistent.fill (hc : Consistent h s) : Consistent (h ++ s.fill.1) s.fill.2 := by
  obtain ⟨harrived, hstarted, hanswered, htaken⟩ :=
    filterMap_starts (β := β) (s.queue.take s.room)
  refine ⟨?_, ?_, ?_, ?_, fun hend => ?_⟩
  · have hbounded := hc.bounded
    show (s.running ++ s.queue.take s.room).length + s.ready.length ≤ s.cap
    rw [List.length_append, List.length_take]
    unfold inProgress at hbounded
    unfold room inProgress
    omega
  · show (h ++ s.fill.1).filterMap arrived? = _ ++ s.queue.drop s.room
    simp only [List.filterMap_append, Unordered.fill, harrived, hstarted, hc.arrived,
      List.append_nil, List.append_assoc, List.take_append_drop]
  · show ((h ++ s.fill.1).filterMap started?).Perm (_ ++ (s.running ++ s.queue.take s.room))
    simp only [List.filterMap_append, Unordered.fill, hstarted, hanswered, List.append_nil]
    rw [← List.append_assoc]
    exact hc.started.append_right _
  · show (h ++ s.fill.1).filterMap answered? = _ ++ s.ready
    simp only [List.filterMap_append, Unordered.fill, hanswered, htaken, List.append_nil]
    exact hc.answered
  · -- nothing is left to start once the stream has ended
    have hold : .ended ∈ h := by
      rcases List.mem_append.mp hend with hend | hend
      · exact hend
      · obtain ⟨x, -, hx⟩ := List.mem_map.mp hend
        exact absurd hx (by simp)
    obtain ⟨hidle, hready⟩ := hc.ended hold
    obtain ⟨hrunning, hqueue, hclosed⟩ := idle_iff.mp hidle
    refine ⟨idle_iff.mpr ⟨?_, ?_, hclosed⟩, hready⟩
    · show s.running ++ s.queue.take s.room = []
      rw [hrunning, hqueue, List.take_nil, List.append_nil]
    · show s.queue.drop s.room = []
      rw [hqueue, List.drop_nil]

theorem Consistent.taken (hc : Consistent h s) {x : α} {y : β} {ready : List (α × β)}
    (hready : s.ready = (x, y) :: ready) :
    Consistent (h ++ [.taken x y]) { s with ready } := by
  refine ⟨?_, ?_, ?_, ?_, fun hend => ?_⟩
  · have hbounded := hc.bounded
    unfold inProgress at hbounded ⊢
    rw [hready, List.length_cons] at hbounded
    show s.running.length + ready.length ≤ s.cap
    omega
  · rw [List.filterMap_append, List.filterMap_append, hc.arrived]
    simp [arrived?, started?, List.filterMap_cons]
  · rw [List.filterMap_append, List.filterMap_append]
    simpa [started?, answered?, List.filterMap_cons] using hc.started
  · rw [List.filterMap_append, List.filterMap_append, hc.answered, hready]
    simp [answered?, taken?, List.filterMap_cons]
  · have hold : .ended ∈ h := by simpa using hend
    rw [(hc.ended hold).2] at hready
    exact absurd hready (by simp)

/-- An item that comes in, or an answer: what was consistent remains so. -/
theorem Consistent.arrive (hc : Consistent h s) (hopen : s.closed = false) (xs : List α) :
    Consistent (h ++ xs.map .arrived) (s.arrive xs) := by
  obtain ⟨harrived, hstarted, hanswered, htaken⟩ := filterMap_arrivals (β := β) xs
  unfold Unordered.arrive
  refine ⟨hc.bounded, ?_, ?_, ?_, fun hend => ?_⟩
  · simp only [List.filterMap_append, harrived, hstarted, hc.arrived, List.append_nil,
      List.append_assoc]
  · simpa only [List.filterMap_append, hstarted, hanswered, List.append_nil] using hc.started
  · simpa only [List.filterMap_append, hanswered, htaken, List.append_nil] using hc.answered
  · have hold : .ended ∈ h := by simpa using hend
    rw [(idle_iff.mp (hc.ended hold).1).2.2] at hopen
    exact absurd hopen (by simp)

theorem Consistent.answer (hc : Consistent h s) {i : Nat} {x : α} (hi : s.running[i]? = some x)
    (y : β) : Consistent (h ++ [.answered x y]) (s.answer i x y) := by
  obtain ⟨hlt, hget⟩ := List.getElem?_eq_some_iff.mp hi
  unfold Unordered.answer
  refine ⟨?_, ?_, ?_, ?_, fun hend => ?_⟩
  · have hbounded := hc.bounded
    unfold inProgress at hbounded ⊢
    show (s.running.eraseIdx i).length + (s.ready ++ [(x, y)]).length ≤ s.cap
    rw [List.length_eraseIdx_of_lt hlt, List.length_append, List.length_singleton]
    omega
  · rw [List.filterMap_append, List.filterMap_append, hc.arrived]
    simp [arrived?, started?, List.filterMap_cons]
  · rw [List.filterMap_append, List.filterMap_append, List.map_append]
    have hperm : s.running.Perm (x :: s.running.eraseIdx i) := by
      rw [← hget]
      exact (List.getElem_cons_eraseIdx_perm hlt).symm
    simpa [started?, answered?, List.filterMap_cons] using hc.started.trans (hperm.append_left _)
  · rw [List.filterMap_append, List.filterMap_append, hc.answered]
    simp [answered?, taken?, List.filterMap_cons]
  · have hold : .ended ∈ h := by simpa using hend
    rw [(idle_iff.mp (hc.ended hold).1).1] at hlt
    exact absurd hlt (by simp)

theorem fill_ready : s.fill.2.ready = s.ready := rfl

/-- Calls are started as long as there are items and room. -/
theorem Consistent.fill_queue (hc : Consistent h s) :
    s.fill.2.queue = [] ∨ s.fill.2.inProgress = s.cap := by
  have hbounded := hc.bounded
  show s.queue.drop s.room = [] ∨ (s.running ++ s.queue.take s.room).length + s.ready.length = s.cap
  rw [List.drop_eq_nil_iff, List.length_append, List.length_take]
  unfold room inProgress at *
  omega

theorem Consistent.close (hc : Consistent h s) : Consistent h s.close := by
  refine ⟨hc.bounded, hc.arrived, hc.started, hc.answered, fun hend => ?_⟩
  obtain ⟨hidle, hready⟩ := hc.ended hend
  obtain ⟨hrunning, hqueue, -⟩ := idle_iff.mp hidle
  exact ⟨idle_iff.mpr ⟨hrunning, hqueue, rfl⟩, hready⟩

/-- When nothing is queued, running or ready, every item that has come in has been answered, and
its answer taken. -/
theorem Consistent.complete (hc : Consistent h s) (hqueue : s.queue = [])
    (hrunning : s.running = []) (hready : s.ready = []) :
    (h.filterMap arrived?).Perm ((h.filterMap taken?).map Prod.fst) := by
  have hstarted := hc.started
  rw [hc.arrived, hqueue, List.append_nil]
  rwa [hrunning, List.append_nil, hc.answered, hready, List.append_nil] at hstarted

end Runs

/-! ### Every stream of answers -/

section Streams

variable {α β γ : Type} {B : BufferUnordered α β γ} {f : α × β → Option γ}
  {h : List (Event α β)} {s : B.Stream}

/-- What a poll does. -/
structure Spec (f : α × β → Option γ) (h : List (Event α β)) (s : Unordered α β)
    (polled : Yield γ) (events : List (Event α β)) (s' : Unordered α β) : Prop where
  cap_eq : s'.cap = s.cap
  arrived : events.filterMap arrived? = []
  answered : events.filterMap answered? = []
  consistent : Consistent (h ++ events) s'
  given : (events.filterMap taken?).filterMap f = (given? polled).toList
  ended : polled = .ended → .ended ∈ events
  /-- A poll that has nothing to give has taken all answers, and has started all the calls it
  may. -/
  pending : polled = .pending → s'.ready = [] ∧ (s'.queue = [] ∨ s'.running.length = s'.cap)

/-- A poll that finds nothing ready. -/
theorem Consistent.poll_nil (hc : Consistent h (B.view s)) (hready : (B.view s).ready = []) :
    Spec f h (B.view s) (B.poll f s).1 (B.poll f s).2.1 (B.view (B.poll f s).2.2) := by
  have hfill := hc.fill
  obtain ⟨harrived, -, hanswered, htaken⟩ :=
    filterMap_starts (β := β) ((B.view s).queue.take (B.view s).room)
  cases hidle : (B.view s).fill.2.idle with
  | true =>
    obtain ⟨s', hpoll, hview⟩ := B.poll_ended f s hready hidle
    rw [hpoll, hview]
    refine ⟨rfl, ?_, ?_, ?_, ?_, fun _ => by simp, fun hp => absurd hp (by simp)⟩
    · rw [List.filterMap_append, Unordered.fill, harrived]
      rfl
    · rw [List.filterMap_append, Unordered.fill, hanswered]
      rfl
    · rw [← List.append_assoc]
      refine ⟨hfill.bounded, ?_, ?_, ?_, fun _ => ⟨hidle, hready⟩⟩
      · simpa [arrived?, started?, List.filterMap_cons] using hfill.arrived
      · simpa [started?, answered?, List.filterMap_cons] using hfill.started
      · simpa [answered?, taken?, List.filterMap_cons] using hfill.answered
    · rw [List.filterMap_append, Unordered.fill, htaken]
      rfl
  | false =>
    obtain ⟨s', hpoll, hview⟩ := B.poll_pending f s hready hidle
    rw [hpoll, hview]
    refine ⟨rfl, harrived, hanswered, hfill, ?_, fun hp => absurd hp (by simp),
      fun _ => ⟨hready, ?_⟩⟩
    · show ((B.view s).fill.1.filterMap taken?).filterMap f = _
      rw [Unordered.fill, htaken]
      rfl
    · have hqueue := hc.fill_queue
      unfold inProgress at hqueue
      rw [fill_ready, hready, List.length_nil, Nat.add_zero] at hqueue
      exact hqueue

/-- What is seen when calls are started and an answer is taken. -/
theorem filterMap_fill_taken (s : Unordered α β) (x : α) (y : β) :
    (s.fill.1 ++ [Event.taken x y]).filterMap arrived? = [] ∧
      (s.fill.1 ++ [Event.taken x y]).filterMap answered? = [] ∧
      (s.fill.1 ++ [Event.taken x y]).filterMap taken? = [(x, y)] := by
  obtain ⟨harrived, -, hanswered, htaken⟩ := filterMap_starts (β := β) (s.queue.take s.room)
  refine ⟨?_, ?_, ?_⟩
  · rw [List.filterMap_append, Unordered.fill, harrived]
    rfl
  · rw [List.filterMap_append, Unordered.fill, hanswered]
    rfl
  · rw [List.filterMap_append, Unordered.fill, htaken]
    rfl

theorem Consistent.poll (hc : Consistent h (B.view s)) :
    Spec f h (B.view s) (B.poll f s).1 (B.poll f s).2.1 (B.view (B.poll f s).2.2) := by
  -- by induction on the answers that are ready, of which the poll takes the first ones
  obtain ⟨ready, hready⟩ : ∃ ready, (B.view s).ready = ready := ⟨_, rfl⟩
  induction ready generalizing h s with
  | nil => exact hc.poll_nil hready
  | cons a ready ih =>
    obtain ⟨x, y⟩ := a
    obtain ⟨harrived, hanswered, htaken⟩ := filterMap_fill_taken (B.view s) x y
    have hstep : Consistent (h ++ ((B.view s).fill.1 ++ [.taken x y]))
        { (B.view s).fill.2 with ready } := by
      rw [← List.append_assoc]
      exact hc.fill.taken hready
    cases hf : f (x, y) with
    | some z =>
      obtain ⟨s', hpoll, hview⟩ := B.poll_kept f s x y z ready hready hf
      rw [hpoll, hview]
      refine ⟨rfl, harrived, hanswered, hstep, ?_, fun hp => absurd hp (by simp),
        fun hp => absurd hp (by simp)⟩
      show (((B.view s).fill.1 ++ [Event.taken x y]).filterMap taken?).filterMap f = [z]
      rw [htaken]
      simp [hf]
    | none =>
      obtain ⟨s', hpoll, hview⟩ := B.poll_dropped f s x y ready hready hf
      rw [← hview] at hstep
      have hrest := ih hstep (congrArg Unordered.ready hview)
      rw [hpoll]
      generalize B.poll f s' = r at hrest ⊢
      have hcap : (B.view s').cap = (B.view s).cap := by
        rw [hview]
        rfl
      refine ⟨hrest.cap_eq.trans hcap, ?_, ?_, ?_, ?_, fun hp => ?_, hrest.pending⟩
      · rw [List.append_cons, List.filterMap_append, harrived, hrest.arrived]
        rfl
      · rw [List.append_cons, List.filterMap_append, hanswered, hrest.answered]
        rfl
      · simpa using hrest.consistent
      · rw [List.append_cons, List.filterMap_append, htaken, List.filterMap_append]
        simpa [hf] using hrest.given
      · exact List.mem_append_right _ (List.mem_cons_of_mem _ (hrest.ended hp))

theorem Consistent.step (hc : Consistent h (B.view s)) {act : Act α β} {polled : Option (Yield γ)}
    {events : List (Event α β)} {s' : B.Stream}
    (hstep : B.step f s act = some (polled, events, s')) :
    (B.view s').cap = (B.view s).cap ∧ Consistent (h ++ events) (B.view s') ∧
      (events.filterMap taken?).filterMap f = polled.toList.filterMap given? ∧
      (.ended ∈ polled → .ended ∈ events) := by
  cases act with
  | arrive xs =>
    simp only [BufferUnordered.step] at hstep
    by_cases hopen : (B.view s).closed = true
    · simp [hopen] at hstep
    · simp only [if_neg hopen, Option.some.injEq, Prod.mk.injEq] at hstep
      obtain ⟨rfl, rfl, rfl⟩ := hstep
      rw [B.view_arrive s xs (Bool.eq_false_iff.mpr hopen)]
      refine ⟨rfl, hc.arrive (Bool.eq_false_iff.mpr hopen) xs, ?_, by simp⟩
      simp [(filterMap_arrivals (β := β) xs).2.2.2]
  | close =>
    simp only [BufferUnordered.step, Option.some.injEq, Prod.mk.injEq] at hstep
    obtain ⟨rfl, rfl, rfl⟩ := hstep
    rw [B.view_close, List.append_nil]
    exact ⟨rfl, hc.close, rfl, by simp⟩
  | answer i y =>
    simp only [BufferUnordered.step] at hstep
    cases hx : (B.view s).running[i]? with
    | none => simp [hx] at hstep
    | some x =>
      simp only [hx, Option.some.injEq, Prod.mk.injEq] at hstep
      obtain ⟨rfl, rfl, rfl⟩ := hstep
      rw [B.view_answer s i x y hx]
      exact ⟨rfl, hc.answer hx y, rfl, by simp⟩
  -- only a poll gives anything
  | poll =>
    simp only [BufferUnordered.step, Option.some.injEq, Prod.mk.injEq] at hstep
    obtain ⟨rfl, rfl, rfl⟩ := hstep
    have hpoll := hc.poll (f := f)
    refine ⟨hpoll.cap_eq, hpoll.consistent, ?_, fun hend => hpoll.ended (by simpa using hend)⟩
    rw [hpoll.given]
    cases hgiven : given? (B.poll f s).1 with
    | none => simp [hgiven]
    | some z => simp [hgiven]

/-- Whatever is done: no more calls than allowed are in progress, no item and no answer is lost,
and what the polls give is what `f` keeps of the answers taken. -/
theorem Consistent.run (hc : Consistent h (B.view s)) {acts : List (Act α β)}
    {polls : List (Yield γ)} {events : List (Event α β)} {s' : B.Stream}
    (hrun : B.run f s acts = some (polls, events, s')) :
    (B.view s').cap = (B.view s).cap ∧ Consistent (h ++ events) (B.view s') ∧
      (events.filterMap taken?).filterMap f = polls.filterMap given? ∧
      (.ended ∈ polls → .ended ∈ events) := by
  induction acts generalizing h s polls events with
  | nil =>
    simp only [BufferUnordered.run, Option.some.injEq, Prod.mk.injEq] at hrun
    obtain ⟨rfl, rfl, rfl⟩ := hrun
    exact ⟨rfl, by simpa using hc, rfl, by simp⟩
  | cons act acts ih =>
    simp only [BufferUnordered.run, Option.bind_eq_bind, Option.bind_eq_some_iff, Option.pure_def,
      Option.some.injEq, Prod.mk.injEq] at hrun
    obtain ⟨⟨polled, first, s₁⟩, hstep, ⟨polls', rest, s₂⟩, hrest, rfl, rfl, rfl⟩ := hrun
    obtain ⟨hcap, hconsistent, hgiven, hended⟩ := hc.step hstep
    obtain ⟨hcap', hconsistent', hgiven', hended'⟩ := ih hconsistent hrest
    refine ⟨hcap'.trans hcap, ?_, ?_, fun hend => ?_⟩
    · simpa using hconsistent'
    · simp only [List.filterMap_append]
      rw [hgiven, hgiven']
    · rcases List.mem_append.mp hend with hend | hend
      · exact List.mem_append_left _ (hended (by simpa using hend))
      · exact List.mem_append_right _ (hended' hend)

end Streams

/-! ### A stream that is its view -/

section Machine

variable {α β γ : Type}

/-- Take the answers that are ready until `f` keeps one.  Before each of them, and before giving
up, calls are started. -/
def pollFor (f : α × β → Option γ) (s : Unordered α β) :
    List (α × β) → Yield γ × List (Event α β) × Unordered α β
  | (x, y) :: ready =>
    let (starts, s) := s.fill
    let s := { s with ready }
    match f (x, y) with
    | some z => (.item z, starts ++ [.taken x y], s)
    | none =>
      let (polled, events, s) := pollFor f s ready
      (polled, starts ++ .taken x y :: events, s)
  | [] =>
    let (starts, s) := s.fill
    if s.idle then (.ended, starts ++ [.ended], s) else (.pending, starts, s)

theorem pollFor_nil (f : α × β → Option γ) (s : Unordered α β) : s.pollFor f [] =
    if s.fill.2.idle then (.ended, s.fill.1 ++ [.ended], s.fill.2)
    else (.pending, s.fill.1, s.fill.2) := rfl

theorem pollFor_kept {f : α × β → Option γ} {x : α} {y : β} {z : γ} (hf : f (x, y) = some z)
    (s : Unordered α β) (ready : List (α × β)) :
    s.pollFor f ((x, y) :: ready)
      = (.item z, s.fill.1 ++ [.taken x y], { s.fill.2 with ready }) := by
  simp only [pollFor, hf]

theorem pollFor_dropped {f : α × β → Option γ} {x : α} {y : β} (hf : f (x, y) = none)
    (s : Unordered α β) (ready : List (α × β)) :
    s.pollFor f ((x, y) :: ready) =
      ((pollFor f { s.fill.2 with ready } ready).1,
        s.fill.1 ++ .taken x y :: (pollFor f { s.fill.2 with ready } ready).2.1,
        (pollFor f { s.fill.2 with ready } ready).2.2) := by
  simp only [pollFor, hf]

/-- The items are kept where they are seen. -/
def buffer : BufferUnordered α β γ where
  Stream := Unordered α β
  new := .new
  arrive := arrive
  close := close
  answer s i y :=
    match s.running[i]? with
    | some x => s.answer i x y
    | none => s
  poll f s := s.pollFor f s.ready
  view := id
  view_new _ := rfl
  view_arrive _ _ _ := rfl
  view_close _ := rfl
  view_answer s i x y hx := by
    simp only [id_eq] at hx ⊢
    rw [hx]
  poll_kept f s x y z ready hready hf := by
    refine ⟨_, ?_, rfl⟩
    simp only [id_eq] at hready ⊢
    rw [hready, pollFor_kept hf]
  poll_dropped f s x y ready hready hf := by
    refine ⟨{ s.fill.2 with ready }, ?_, rfl⟩
    simp only [id_eq] at hready ⊢
    rw [hready, pollFor_dropped hf]
  poll_ended f s hready hidle := by
    refine ⟨_, ?_, rfl⟩
    simp only [id_eq] at hready hidle ⊢
    rw [hready, pollFor_nil, if_pos hidle]
  poll_pending f s hready hidle := by
    refine ⟨_, ?_, rfl⟩
    simp only [id_eq] at hready hidle ⊢
    rw [hready, pollFor_nil, if_neg (by simp [hidle])]

end Machine

end Unordered

end ArtemisLight
