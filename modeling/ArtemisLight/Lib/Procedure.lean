/-!
# Procedures

A procedure reads and changes a state and may return early with an error, which keeps the changes
made before it.  `Holds P m Q` is its Hoare triple: `Q` speaks of the result, an error included, and
of the state it is returned in.
-/

namespace ArtemisLight

/-- A procedure over the state `S`. -/
abbrev Proc (S ε α : Type) := ExceptT ε (StateM S) α

variable {S ε α β : Type}

namespace Proc

/-- The procedure that does one step of the state. -/
def step (f : S → Except ε α × S) : Proc S ε α := f

/-- A result that does not depend on the state. -/
def ofExcept (r : Except ε α) : Proc S ε α := step fun s => (r, s)

/-- Run a procedure and return its result, an error included, as a value. -/
def attempt (m : Proc S ε α) : Proc S ε (Except ε α) := step fun s => (.ok (m s).1, (m s).2)

/-- The result of a procedure and the state it leaves. -/
def exec (m : Proc S ε α) (s : S) : Except ε α × S := m s

@[simp] theorem exec_step (f : S → Except ε α × S) (s : S) : (step f).exec s = f s := rfl

@[simp] theorem exec_ofExcept (r : Except ε α) (s : S) : (ofExcept r).exec s = (r, s) := rfl

@[simp] theorem exec_attempt (m : Proc S ε α) (s : S) :
    m.attempt.exec s = (.ok (m.exec s).1, (m.exec s).2) := rfl

@[simp] theorem exec_pure (a : α) (s : S) : exec (pure a : Proc S ε α) s = (.ok a, s) := rfl

@[simp] theorem exec_throw (e : ε) (s : S) : exec (throw e : Proc S ε α) s = (.error e, s) := rfl

theorem exec_bind_ok {m : Proc S ε α} {k : α → Proc S ε β} {s s' : S} {a : α}
    (h : m.exec s = (.ok a, s')) : (m >>= k).exec s = (k a).exec s' := by
  change ExceptT.bindCont k (m.exec s).1 (m.exec s).2 = _
  rw [h]
  rfl

theorem exec_bind_error {m : Proc S ε α} {k : α → Proc S ε β} {s s' : S} {e : ε}
    (h : m.exec s = (.error e, s')) : (m >>= k).exec s = (.error e, s') := by
  change ExceptT.bindCont k (m.exec s).1 (m.exec s).2 = _
  rw [h]
  rfl

/-- A sequence that returns a value returned one from both procedures. -/
theorem exec_bind_eq_ok {m : Proc S ε α} {k : α → Proc S ε β} {s s'' : S} {b : β}
    (h : (m >>= k).exec s = (.ok b, s'')) :
    ∃ a s', m.exec s = (.ok a, s') ∧ (k a).exec s' = (.ok b, s'') := by
  rcases hm : m.exec s with ⟨e | a, s'⟩
  · rw [exec_bind_error hm] at h
    exact nomatch (Prod.mk.inj h).1
  · rw [exec_bind_ok hm] at h
    exact ⟨a, s', rfl, h⟩

/-- A step that cannot fail hands over its value. -/
theorem exec_step_bind (f : S → α × S) (k : α → Proc S ε β) (s : S) :
    ((step fun s => (.ok (f s).1, (f s).2)) >>= k).exec s = (k (f s).1).exec (f s).2 := rfl

@[simp] theorem ofExcept_ok_bind (a : α) (k : α → Proc S ε β) :
    ofExcept (.ok a) >>= k = k a := rfl

theorem exec_attempt_bind (m : Proc S ε α) (k : Except ε α → Proc S ε β) (s : S) :
    (m.attempt >>= k).exec s = (k (m.exec s).1).exec (m.exec s).2 := rfl

end Proc

/-- From a state in `P`, the procedure returns a result and a state in `Q`. -/
def Holds (P : S → Prop) (m : Proc S ε α) (Q : Except ε α → S → Prop) : Prop :=
  ∀ s, P s → Q (m.exec s).1 (m.exec s).2

namespace Holds

variable {P P' : S → Prop} {Q Q' : Except ε α → S → Prop}

theorem pure {a : α} (h : ∀ s, P s → Q (.ok a) s) : Holds P (pure a : Proc S ε α) Q := h

theorem throw {e : ε} (h : ∀ s, P s → Q (.error e) s) : Holds P (throw e : Proc S ε α) Q := h

/-- An error of the first procedure is the result; a value is handed to the second one. -/
theorem bind {m : Proc S ε α} {k : α → Proc S ε β} {R : Except ε β → S → Prop}
    {M : α → S → Prop}
    (hm : Holds P m fun r s => r.casesOn (fun e => R (.error e) s) (fun a => M a s))
    (hk : ∀ a, Holds (M a) (k a) R) : Holds P (m >>= k) R := by
  intro s hs
  have hr := hm s hs
  rcases hms : m.exec s with ⟨r, s'⟩
  rw [hms] at hr
  rcases r with e | a
  · rw [Proc.exec_bind_error hms]
    exact hr
  · rw [Proc.exec_bind_ok hms]
    exact hk a s' hr

/-- The first procedure of a postcondition that every error satisfies may do what it likes. -/
theorem bind_right {m : Proc S ε α} {k : α → Proc S ε β} {R : Except ε β → S → Prop}
    (he : ∀ e s, R (.error e) s) (hk : ∀ a, Holds (fun _ => True) (k a) R) :
    Holds P (m >>= k) R := by
  refine bind (M := fun _ _ => True) (fun s _ => ?_) hk
  cases (m.exec s).1 with
  | error e => exact he e _
  | ok a => trivial

theorem mono {m : Proc S ε α} (h : Holds P m Q) (hP : ∀ s, P' s → P s)
    (hQ : ∀ r s, Q r s → Q' r s) : Holds P' m Q' :=
  fun s hs => hQ _ _ (h s (hP s hs))

end Holds

/-- The procedure preserves `I`, whatever it returns. -/
def Preserves (I : S → Prop) (m : Proc S ε α) : Prop := Holds I m fun _ => I

namespace Preserves

variable {I : S → Prop}

theorem pure (a : α) : Preserves I (pure a : Proc S ε α) := Holds.pure fun _ hs => hs

theorem throw (e : ε) : Preserves I (throw e : Proc S ε α) := Holds.throw fun _ hs => hs

theorem bind {m : Proc S ε α} {k : α → Proc S ε β} (hm : Preserves I m)
    (hk : ∀ a, Preserves I (k a)) : Preserves I (m >>= k) := by
  refine Holds.bind (M := fun _ => I) (hm.mono (fun _ hs => hs) fun r s hs => ?_) hk
  cases r with
  | error e => exact hs
  | ok a => exact hs

end Preserves

end ArtemisLight
