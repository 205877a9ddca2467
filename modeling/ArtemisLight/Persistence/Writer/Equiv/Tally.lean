import ArtemisLight.Persistence.Writer.Equiv.Delayed
import ArtemisLight.Persistence.Writer.Labels

/-!
# The tally of a frontier source

A frontier source reports each pair of an instant and an identity any number of times, in any order.
`Tally` says what a watermark that deduplicates it knows: exactly the pairs accepted before, and
whatever lies below an instant already reached.  So no pair is accepted twice, and none is dropped
that was never seen.
-/

namespace ArtemisLight

variable {E : Type}

/-! ### Frontiers -/

namespace TimeFrontier

variable {w p q : TimeFrontier}

theorem contains_iff : Position.contains w p = true ↔
    p.timeMs < w.timeMs ∨ p.timeMs = w.timeMs ∧ p.seen ⊆ w.seen := by
  show (decide (p.timeMs < w.timeMs) || (decide (p.timeMs = w.timeMs) && decide (p.seen ⊆ w.seen)))
    = true ↔ _
  simp only [Bool.or_eq_true, Bool.and_eq_true, decide_eq_true_eq]

theorem contains_self (p : TimeFrontier) : Position.contains p p = true :=
  contains_iff.mpr (.inr ⟨rfl, Finset.Subset.refl _⟩)

/-- The three ways of folding one frontier into another. -/
theorem advance_cases (w p : TimeFrontier) :
    w.timeMs < p.timeMs ∧ Position.advance (some w) p = p ∨
    p.timeMs < w.timeMs ∧ Position.advance (some w) p = w ∨
    w.timeMs = p.timeMs ∧ Position.advance (some w) p = ⟨w.timeMs, w.seen ∪ p.seen⟩ := by
  rcases Nat.lt_trichotomy w.timeMs p.timeMs with h | h | h
  · exact .inl ⟨h, by simp only [Position.advance, if_pos h]⟩
  · have hlt : ¬ w.timeMs < p.timeMs := by omega
    have hgt : ¬ p.timeMs < w.timeMs := by omega
    exact .inr (.inr ⟨h, by simp only [Position.advance, if_neg hlt, if_neg hgt]⟩)
  · have hlt : ¬ w.timeMs < p.timeMs := by omega
    exact .inr (.inl ⟨h, by simp only [Position.advance, if_neg hlt, if_pos h]⟩)

/-- What a watermark covers it goes on covering. -/
theorem contains_advance_left (h : Position.contains w q = true) (p : TimeFrontier) :
    Position.contains (Position.advance (some w) p) q = true := by
  rw [contains_iff] at h ⊢
  rcases advance_cases w p with ⟨hlt, he⟩ | ⟨-, he⟩ | ⟨-, he⟩ <;> rw [he]
  · exact .inl (by omega)
  · exact h
  · exact h.imp id fun ⟨heq, hsub⟩ => ⟨heq, hsub.trans Finset.subset_union_left⟩

/-- What is folded in covers from then on what it covers. -/
theorem contains_advance_right (h : Position.contains p q = true) (w : Option TimeFrontier) :
    Position.contains (Position.advance w p) q = true := by
  rcases w with _ | w
  · exact h
  · rw [contains_iff] at h ⊢
    rcases advance_cases w p with ⟨-, he⟩ | ⟨hlt, he⟩ | ⟨heq, he⟩ <;> rw [he]
    · exact h
    · exact .inl (by omega)
    · rcases h with hlt | ⟨htime, hsub⟩
      · exact .inl (heq ▸ hlt)
      · exact .inr ⟨htime.trans heq.symm, hsub.trans Finset.subset_union_right⟩

end TimeFrontier

/-! ### Groups and the positions they were accepted for -/

/-- A group of the instant `k` whose rows were accepted for the positions `ls`: its frontier has
seen their identities and no others. -/
structure Labelled (ls : List (TimeFrontier × Row)) (k : Nat) (position : TimeFrontier)
    (rows : List Row) : Prop where
  time : position.timeMs = k
  seen : ∀ i, i ∈ position.seen ↔ ∃ x ∈ ls, i ∈ x.1.seen
  rows : rows = ls.map Prod.snd

namespace Labelled

variable {ls : List (TimeFrontier × Row)} {k : Nat} {position p : TimeFrontier} {rows : List Row}

theorem single (p : TimeFrontier) (row : Row) : Labelled [(p, row)] p.timeMs p [row] where
  time := rfl
  seen i := by simp
  rows := rfl

theorem concat (h : Labelled ls k position rows) (hp : p.timeMs = k) (row : Row) :
    Labelled (ls ++ [(p, row)]) k (Position.advance (some position) p) (rows ++ [row]) := by
  have heq : position.timeMs = p.timeMs := h.time.trans hp.symm
  obtain ⟨hlt, -⟩ | ⟨hlt, -⟩ | ⟨-, he⟩ := TimeFrontier.advance_cases position p
  · omega
  · omega
  rw [he]
  refine ⟨h.time, fun i => ?_, ?_⟩
  · rw [Finset.mem_union, h.seen]
    simp only [List.mem_append, List.mem_singleton, or_and_right, exists_or, exists_eq_left]
  · rw [h.rows, List.map_append]
    rfl

/-- The group covers what it was accepted for. -/
theorem contains (h : Labelled ls k position rows) {q : TimeFrontier} (hq : q ∈ ls.map Prod.fst)
    (hk : q.timeMs = k) : Position.contains position q = true := by
  obtain ⟨x, hx, rfl⟩ := List.mem_map.mp hq
  exact TimeFrontier.contains_iff.mpr (.inr ⟨hk.trans h.time.symm, fun i hi =>
    (h.seen i).mpr ⟨x, hx, hi⟩⟩)

/-- An identity of the group is one it was accepted for. -/
theorem mem_of_seen (h : Labelled ls k position rows) (hls : ∀ x ∈ ls, x.1.timeMs = k)
    (hsingle : ∀ x ∈ ls, ∃ i, x.1.seen = {i}) {i : String} (hi : i ∈ position.seen) :
    (⟨k, {i}⟩ : TimeFrontier) ∈ ls.map Prod.fst := by
  obtain ⟨x, hx, hix⟩ := (h.seen i).mp hi
  obtain ⟨j, hj⟩ := hsingle x hx
  rw [hj, Finset.mem_singleton] at hix
  refine List.mem_map.mpr ⟨x, hx, ?_⟩
  rw [← hls x hx, hix, ← hj]

end Labelled

/-- What waits at an instant is what the group there holds, if there is one. -/
def GroupAt (effects : List (Effect TimeFrontier E)) (k : Nat) :
    Option (TimeFrontier × List Row) → Prop
  | none => waiting effects k = []
  | some g => Labelled (waiting effects k) k g.1 g.2

namespace GroupAt

variable {effects : List (Effect TimeFrontier E)} {k : Nat}
  {group : Option (TimeFrontier × List Row)}

/-- An effect that neither accepts nor writes leaves every group. -/
theorem silent (h : GroupAt effects k group) {x : Effect TimeFrontier E} (ha : x.accepted? = none)
    (hw : x.wrote? = none) : GroupAt (effects ++ [x]) k group := by
  have hsame : waiting (effects ++ [x]) k = waiting effects k := by
    rw [waiting, labels_of_silent effects ha hw]
  unfold GroupAt
  rw [hsame]
  exact h

/-- One more row. -/
theorem accepted {p : TimeFrontier} (h : GroupAt effects p.timeMs group) (w : Writer) (e : E)
    (row : Row) :
    GroupAt (effects ++ [.accepted w p e row]) p.timeMs
      (some (ConfirmationWindow.extended group p row)) := by
  have hwaiting : waiting (effects ++ [.accepted w p e row]) p.timeMs
      = waiting effects p.timeMs ++ [(p, row)] := by
    rw [waiting_accepted]
    exact if_pos rfl
  show Labelled (waiting (effects ++ [.accepted w p e row]) p.timeMs) _ _ _
  rw [hwaiting]
  rcases group with _ | g
  · rw [show waiting effects p.timeMs = [] from h]
    exact .single p row
  · exact Labelled.concat h rfl row

theorem accepted_of_ne (h : GroupAt effects k group) {p : TimeFrontier} (hk : k ≠ p.timeMs)
    (w : Writer) (e : E) (row : Row) : GroupAt (effects ++ [.accepted w p e row]) k group := by
  have hsame : waiting (effects ++ [.accepted w p e row]) k = waiting effects k := by
    rw [waiting_accepted]
    exact if_neg hk
  unfold GroupAt
  rw [hsame]
  exact h

/-- A group that has been written is gone. -/
theorem wrote (effects : List (Effect TimeFrontier E)) (w : Writer) (p : TimeFrontier)
    (rows : List Row) : GroupAt (effects ++ [.wrote w p rows]) p.timeMs none := by
  show waiting _ _ = []
  rw [waiting_wrote]
  exact if_pos rfl

theorem wrote_of_ne (h : GroupAt effects k group) {p : TimeFrontier} (hk : k ≠ p.timeMs)
    (w : Writer) (rows : List Row) : GroupAt (effects ++ [.wrote w p rows]) k group := by
  have hsame : waiting (effects ++ [.wrote w p rows]) k = waiting effects k := by
    rw [waiting_wrote]
    exact if_neg hk
  unfold GroupAt
  rw [hsame]
  exact h

end GroupAt

/-! ### Watermarks -/

/-- The instants that a subscription from `seed` has attained: the stored one, the final cut, and
those it has written a group of. -/
def Attained (seed : Option TimeFrontier) (cut : Option Nat)
    (effects : List (Effect TimeFrontier E)) (t : Nat) : Prop :=
  (∃ s ∈ seed, s.timeMs = t) ∨ t ∈ cut ∨ ∃ g ∈ writes effects, g.1.timeMs = t

theorem Attained.append {seed : Option TimeFrontier} {cut : Option Nat}
    {effects : List (Effect TimeFrontier E)} {t : Nat} (h : Attained seed cut effects t)
    (xs : List (Effect TimeFrontier E)) : Attained seed cut (effects ++ xs) t := by
  refine h.imp id (Or.imp id fun ⟨g, hg, ht⟩ => ⟨g, ?_, ht⟩)
  rw [writes_append]
  exact List.mem_append_left _ hg

/-- A watermark that has seen nothing but known pairs at its instant, which has been attained. -/
structure Marks (known : List TimeFrontier) (attained : Nat → Prop) (wm : Option TimeFrontier) :
    Prop where
  exact : ∀ w ∈ wm, ∀ i ∈ w.seen, (⟨w.timeMs, {i}⟩ : TimeFrontier) ∈ known
  attained : ∀ w ∈ wm, attained w.timeMs

namespace Marks

variable {known known' : List TimeFrontier} {attained attained' : Nat → Prop}
  {wm : Option TimeFrontier} {p : TimeFrontier}

theorem mono (h : Marks known attained wm) (hknown : ∀ q ∈ known, q ∈ known')
    (hattained : ∀ t, attained t → attained' t) : Marks known' attained' wm where
  exact w hw i hi := hknown _ (h.exact w hw i hi)
  attained w hw := hattained _ (h.attained w hw)

theorem advance (h : Marks known attained wm)
    (hp : ∀ i ∈ p.seen, (⟨p.timeMs, {i}⟩ : TimeFrontier) ∈ known) (ht : attained p.timeMs) :
    Marks known attained (some (Position.advance wm p)) := by
  rcases wm with _ | w
  · exact ⟨fun w hw => Option.some.inj hw ▸ hp, fun w hw => Option.some.inj hw ▸ ht⟩
  · have hw := h.exact w rfl
    refine ⟨fun v hv => ?_, fun v hv => ?_⟩ <;> obtain rfl := Option.some.inj hv
    · rcases TimeFrontier.advance_cases w p with ⟨-, he⟩ | ⟨-, he⟩ | ⟨heq, he⟩ <;> rw [he]
      · exact hp
      · exact hw
      · intro i hi
        rcases Finset.mem_union.mp hi with hi | hi
        · exact hw i hi
        · have hpi := hp i hi
          rw [← heq] at hpi
          exact hpi
    · rcases TimeFrontier.advance_cases w p with ⟨-, he⟩ | ⟨-, he⟩ | ⟨heq, he⟩ <;> rw [he]
      · exact ht
      · exact h.attained w rfl
      · exact h.attained w rfl

/-- What a watermark covers is known, or below an instant that has been attained. -/
theorem covered (h : Marks known attained wm) {w : TimeFrontier} (hw : w ∈ wm)
    (hc : Position.contains w p = true) (hp : ∃ i, p.seen = {i}) :
    p ∈ known ∨ ∃ t, attained t ∧ p.timeMs < t := by
  rcases TimeFrontier.contains_iff.mp hc with hlt | ⟨heq, hsub⟩
  · exact .inr ⟨_, h.attained w hw, hlt⟩
  · obtain ⟨i, hi⟩ := hp
    have hknown := h.exact w hw i (hsub (by rw [hi]; exact Finset.mem_singleton_self i))
    rw [← heq, ← hi] at hknown
    exact .inl hknown

end Marks

/-! ### The tally -/

/-- Nothing has halted. -/
def Unhalted (effects : List (Effect TimeFrontier E)) : Prop :=
  ∀ writer reason, .halted writer reason ∉ effects

/-- Whether a writer halts. -/
def Effect.isHalt : Effect TimeFrontier E → Bool
  | .halted .. => true
  | _ => false

instance (effects : List (Effect TimeFrontier E)) : Decidable (Unhalted effects) :=
  decidable_of_iff (effects.all fun x => !x.isHalt) (by
    rw [List.all_eq_true]
    constructor
    · intro h writer reason hmem
      exact absurd (h _ hmem) (by simp [Effect.isHalt])
    · intro h x hmem
      cases x with
      | halted writer reason => exact absurd hmem (h writer reason)
      | _ => rfl)

/-- The pairs that are known: those stored before, and those accepted since. -/
abbrev knownPairs (stored : List TimeFrontier) (effects : List (Effect TimeFrontier E)) :
    List TimeFrontier := stored ++ acceptedPositions effects

/-- What every effect of a subscription to a frontier source satisfies.  While nothing has halted,
an event is yielded exactly when its row has been accepted; one is suppressed only if its pair is
known or its instant has been passed; and a group is written with the rows that wait for it. -/
def Traced (stored : List TimeFrontier) (seed : Option TimeFrontier) (cut : Option Nat)
    (past : List (Effect TimeFrontier E)) : Effect TimeFrontier E → Prop
  | .accepted _ _ _ _ => Unhalted past → (accepts past).map Prod.snd = yields past
  | .yielded e => Unhalted past → (accepts past).map Prod.snd = yields past ++ [e]
  | .suppressed p _ => p ∈ knownPairs stored past ∨ ∃ t, Attained seed cut past t ∧ p.timeMs < t
  | .wrote _ p rows => Labelled (waiting past p.timeMs) p.timeMs p rows
  | _ => True

/-- The pairs accepted so far, against a watermark. -/
structure Tally (stored : List TimeFrontier) (seed : Option TimeFrontier) (cut : Option Nat)
    (wm : Option TimeFrontier) (effects : List (Effect TimeFrontier E)) : Prop where
  traced : Always (Traced stored seed cut) effects
  nodup : (knownPairs stored effects).Nodup
  single : ∀ q ∈ knownPairs stored effects, ∃ i, q.seen = {i}
  marks : Marks (knownPairs stored effects) (Attained seed cut effects) wm
  covers : ∀ q ∈ knownPairs stored effects,
    q ∈ (waiting effects q.timeMs).map Prod.fst ∨ ∃ w ∈ wm, Position.contains w q = true

namespace Tally

variable {stored : List TimeFrontier} {seed wm : Option TimeFrontier} {cut : Option Nat}
  {effects : List (Effect TimeFrontier E)} {p : TimeFrontier}

/-- An effect that neither accepts nor writes. -/
theorem silent (h : Tally stored seed cut wm effects) {x : Effect TimeFrontier E}
    (ha : x.accepted? = none) (hw : x.wrote? = none) (hx : Traced stored seed cut effects x) :
    Tally stored seed cut wm (effects ++ [x]) := by
  have hknown : knownPairs stored (effects ++ [x]) = knownPairs stored effects := by
    rw [knownPairs, acceptedPositions, accepts_of_not_accepted effects ha]
  refine ⟨h.traced.concat hx, ?_, ?_, ?_, ?_⟩
  · rw [hknown]
    exact h.nodup
  · rw [hknown]
    exact h.single
  · rw [hknown]
    exact h.marks.mono (fun _ hq => hq) fun _ ht => ht.append _
  · rw [hknown]
    intro q hq
    rw [waiting, labels_of_silent effects ha hw]
    exact h.covers q hq

/-- A pair that is not known is accepted. -/
theorem accepted (h : Tally stored seed cut wm effects) (w : Writer) (e : E) (row : Row)
    (hfresh : p ∉ knownPairs stored effects) (hp : ∃ i, p.seen = {i})
    (hx : Unhalted effects → (accepts effects).map Prod.snd = yields effects) :
    Tally stored seed cut wm (effects ++ [.accepted w p e row]) := by
  have hknown : knownPairs stored (effects ++ [.accepted w p e row])
      = knownPairs stored effects ++ [p] := by
    rw [knownPairs, acceptedPositions_accepted, List.append_assoc]
  have hmem : ∀ q ∈ knownPairs stored effects, q ∈ knownPairs stored effects ++ [p] :=
    fun q hq => List.mem_append_left _ hq
  refine ⟨h.traced.concat hx, ?_, ?_, ?_, ?_⟩ <;> rw [hknown]
  · rw [← List.concat_eq_append]
    exact List.Nodup.concat hfresh h.nodup
  · intro q hq
    rcases List.mem_append.mp hq with hq | hq
    · exact h.single q hq
    · rw [List.mem_singleton.mp hq]
      exact hp
  · exact h.marks.mono hmem fun _ ht => ht.append _
  · intro q hq
    rw [waiting_accepted]
    rcases List.mem_append.mp hq with hq | hq
    · refine (h.covers q hq).imp (fun hwait => ?_) id
      split
      · rw [List.map_append]
        exact List.mem_append_left _ hwait
      · exact hwait
    · rw [List.mem_singleton.mp hq, if_pos (show p.timeMs = Position.sortKey p from rfl),
        List.map_append]
      exact .inl (List.mem_append_right _ (List.mem_singleton_self p))

/-- A group is written, and folded into the watermark. -/
theorem wrote (h : Tally stored seed cut wm effects) (w : Writer) {rows : List Row}
    (hg : Labelled (waiting effects p.timeMs) p.timeMs p rows) :
    Tally stored seed cut (some (Position.advance wm p)) (effects ++ [.wrote w p rows]) := by
  have hknown : knownPairs stored (effects ++ [.wrote w p rows]) = knownPairs stored effects := by
    rw [knownPairs, acceptedPositions, accepts_of_not_accepted effects rfl]
  have hwaits : ∀ x ∈ waiting effects p.timeMs, x.1 ∈ knownPairs stored effects := fun x hx =>
    List.mem_append_right _ (accepted_of_waiting hx)
  refine ⟨h.traced.concat hg, ?_, ?_, ?_, ?_⟩
  · rw [hknown]
    exact h.nodup
  · rw [hknown]
    exact h.single
  · rw [hknown]
    refine (h.marks.mono (fun _ hq => hq) fun _ ht => ht.append _).advance (fun i hi => ?_) ?_
    · obtain ⟨x, hx, hpair⟩ := List.mem_map.mp (hg.mem_of_seen (fun x hx => sortKey_of_waiting hx)
        (fun x hx => h.single _ (hwaits x hx)) hi)
      rw [← hpair]
      exact hwaits x hx
    · refine .inr (.inr ⟨(p, rows), ?_, rfl⟩)
      rw [writes_append]
      exact List.mem_append_right _ (List.mem_singleton_self _)
  · rw [hknown]
    intro q hq
    rcases h.covers q hq with hwait | ⟨v, hv, hc⟩
    · by_cases hk : q.timeMs = p.timeMs
      · rw [hk] at hwait
        exact .inr ⟨_, rfl, TimeFrontier.contains_advance_right (hg.contains hwait hk) wm⟩
      · refine .inl ?_
        rw [waiting_wrote, if_neg (show ¬ q.timeMs = Position.sortKey p from hk)]
        exact hwait
    · rw [Option.mem_def.mp hv]
      exact .inr ⟨_, rfl, TimeFrontier.contains_advance_left hc p⟩

/-- The watermark is replaced by one that covers as much. -/
theorem remark (h : Tally stored seed cut wm effects) {wm' : Option TimeFrontier}
    (hm : Marks (knownPairs stored effects) (Attained seed cut effects) wm')
    (hcovers : ∀ w ∈ wm, ∀ q, Position.contains w q = true →
      ∃ w' ∈ wm', Position.contains w' q = true) : Tally stored seed cut wm' effects where
  traced := h.traced
  nodup := h.nodup
  single := h.single
  marks := hm
  covers q hq := (h.covers q hq).imp id fun ⟨w, hw, hc⟩ => hcovers w hw q hc

/-- What neither waits at its instant nor is covered by the watermark is not known. -/
theorem fresh (h : Tally stored seed cut wm effects) {group : Option (TimeFrontier × List Row)}
    (hg : GroupAt effects p.timeMs group)
    (hgroup : ∀ g ∈ group, Position.contains g.1 p = false)
    (hwm : ∀ w ∈ wm, Position.contains w p = false) : p ∉ knownPairs stored effects := by
  intro hp
  rcases h.covers p hp with hwait | ⟨w, hw, hc⟩
  · rcases group with _ | g
    · rw [show waiting effects p.timeMs = [] from hg] at hwait
      exact absurd hwait List.not_mem_nil
    · have hc := Labelled.contains hg hwait rfl
      rw [hgroup g rfl] at hc
      exact nomatch hc
  · rw [hwm w hw] at hc
    exact nomatch hc

/-- What the group of its instant covers is known. -/
theorem known_of_group (h : Tally stored seed cut wm effects) {g : TimeFrontier × List Row}
    (hg : GroupAt effects p.timeMs (some g)) (hc : Position.contains g.1 p = true)
    (hp : ∃ i, p.seen = {i}) : p ∈ knownPairs stored effects := by
  have hlabelled : Labelled (waiting effects p.timeMs) p.timeMs g.1 g.2 := hg
  obtain ⟨i, hi⟩ := hp
  have hseen : i ∈ g.1.seen := by
    rcases TimeFrontier.contains_iff.mp hc with hlt | ⟨-, hsub⟩
    · have := hlabelled.time
      omega
    · exact hsub (by rw [hi]; exact Finset.mem_singleton_self i)
  obtain ⟨x, hx, hpair⟩ := List.mem_map.mp (hlabelled.mem_of_seen
    (fun x hx => sortKey_of_waiting hx)
    (fun x hx => h.single _ (List.mem_append_right _ (accepted_of_waiting hx))) hseen)
  rw [← hi] at hpair
  rw [← show x.1 = p from hpair]
  exact List.mem_append_right _ (accepted_of_waiting hx)

end Tally
/-! ### Accepted and yielded -/

/-- While nothing has halted, exactly the accepted events have been yielded. -/
def Even (effects : List (Effect TimeFrontier E)) : Prop :=
  Unhalted effects → (accepts effects).map Prod.snd = yields effects

namespace Even

variable {effects : List (Effect TimeFrontier E)}

theorem of_halted (h : ¬ Unhalted effects) : Even effects := fun hu => absurd hu h

/-- The yield that follows an accepted event, after the writes that its group set off. -/
theorem traced_yield {stored : List TimeFrontier} {seed : Option TimeFrontier} {cut : Option Nat}
    (h : Even effects) (w : Writer) (p : TimeFrontier) (e : E) (row : Row)
    {xs : List (Effect TimeFrontier E)} (hquiet : ∀ x ∈ xs, x.Quiet) :
    Traced stored seed cut (effects ++ .accepted w p e row :: xs) (.yielded e) := by
  intro hu
  have hold := h fun writer reason hmem => hu writer reason (List.mem_append_left _ hmem)
  have haccepts : accepts (.accepted w p e row :: xs) = [(p, e)] := by
    show (p, e) :: accepts xs = _
    rw [accepts_of_quiet hquiet]
  have hyields : yields (.accepted w p e row :: xs) = [] := by
    show yields xs = []
    exact yields_of_quiet hquiet
  rw [accepts_append, yields_append, List.map_append, hold, haccepts, hyields, List.append_nil]
  rfl

theorem yielded {e : E} (h : Unhalted effects →
    (accepts effects).map Prod.snd = yields effects ++ [e]) : Even (effects ++ [.yielded e]) := by
  intro hu
  have hold := h fun writer reason hmem => hu writer reason (List.mem_append_left _ hmem)
  rw [accepts_append, yields_append, List.map_append, hold]
  show yields effects ++ [e] ++ [] = yields effects ++ [e]
  rw [List.append_nil]

theorem suppressed (h : Even effects) (p : TimeFrontier) (e : E) :
    Even (effects ++ [.suppressed p e]) := by
  intro hu
  have hold := h fun writer reason hmem => hu writer reason (by simp [hmem])
  rw [accepts_append, yields_append, List.map_append, hold]
  rfl

theorem wrote (h : Even effects) (w : Writer) (p : TimeFrontier) (rows : List Row) :
    Even (effects ++ [.wrote w p rows]) := by
  intro hu
  have hold := h fun writer reason hmem => hu writer reason (by simp [hmem])
  rw [accepts_append, yields_append, List.map_append, hold]
  rfl

end Even

theorem not_unhalted_concat {effects : List (Effect TimeFrontier E)} (h : ¬ Unhalted effects)
    (x : Effect TimeFrontier E) : ¬ Unhalted (effects ++ [x]) :=
  fun hu => h fun writer reason hmem => hu writer reason (List.mem_append_left _ hmem)

theorem not_unhalted_halted (effects : List (Effect TimeFrontier E)) (w : Writer)
    (r : HaltReason TimeFrontier) : ¬ Unhalted (effects ++ [.halted w r]) :=
  fun hu => hu w r (List.mem_append_right _ (List.mem_singleton_self _))
end ArtemisLight
