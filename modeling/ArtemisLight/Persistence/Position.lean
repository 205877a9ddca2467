import Mathlib.Data.Finset.Basic
import ArtemisLight.Lib.Machine
import ArtemisLight.Types

/-!
# Positions

A `Position` is whatever a collector uses to order and resume its stream.  `BlockPosition` is an EVM
block number; `TimeFrontier` is the `(time, seen-set)` frontier.  The text encoding of a position is
a class of its own (`PositionEncoding`): only the store reads it.
-/

namespace ArtemisLight

/-- How a source treats re-observing a position already covered by the stored watermark. -/
inductive Reobservation where
  /-- Re-observing a covered position is a deep reorg: halt persistence. -/
  | halt
  /-- Re-observing a covered position is expected overlap: skip and suppress. -/
  | dedupe
  deriving DecidableEq, Repr

/-- A generic ordering key for durable persistence. -/
class Position (P : Type) where
  reobservation : Reobservation
  /-- The totally-ordered scalar projection, driving grouping, confirmation depth and windows. -/
  sortKey : P → Nat
  /-- The minimal position at a sort key. -/
  fromSortKey : Nat → P
  /-- Fold the previously stored position with a newly processed one. -/
  advance : Option P → P → P
  /-- Whether an event at the second position is already covered by the first, a watermark. -/
  contains : P → P → Bool
  /-- The sort key that backfill resumes from. -/
  resumeKey : P → Nat

/-- The persisted text of a position. -/
class PositionEncoding (P : Type) where
  encode : P → String
  decode : String → Except Error P

/-! ### Block positions -/

/-- The built-in default position: an EVM block number. -/
structure BlockPosition where
  block : Nat
  deriving DecidableEq, Repr

instance : Position BlockPosition where
  reobservation := .halt
  sortKey p := p.block
  fromSortKey key := ⟨key⟩
  advance
    | some prev, next => ⟨max prev.block next.block⟩
    | none, next => next
  contains w pos := decide (pos.block ≤ w.block)
  resumeKey p := saturatingAdd u64Max p.block 1

/-- The value of a run of ASCII digits, most significant first. -/
def digitsValue : List Char → Nat → Option Nat
  | [], acc => some acc
  | c :: cs, acc => if c.isDigit then digitsValue cs (10 * acc + (c.toNat - '0'.toNat)) else none

/-- `str::parse::<u64>`: an optional `+`, then at least one ASCII digit, at most `u64::MAX`. -/
def parseU64 (s : String) : Option Nat :=
  let digits := match s.toList with
    | '+' :: cs => cs
    | cs => cs
  if digits = [] then none
  else (digitsValue digits 0).filter (· ≤ u64Max)

instance : PositionEncoding BlockPosition where
  encode p := toString p.block
  decode encoded := match parseU64 encoded with
    | some block => .ok ⟨block⟩
    | none => .error s!"decoding BlockPosition from {repr encoded}"

namespace BlockPosition

@[simp] theorem reobservation_eq : Position.reobservation BlockPosition = .halt := rfl

@[simp] theorem sortKey_eq (p : BlockPosition) : Position.sortKey p = p.block := rfl

@[simp] theorem fromSortKey_eq (k : Nat) : (Position.fromSortKey k : BlockPosition) = ⟨k⟩ := rfl

@[simp] theorem advance_none (p : BlockPosition) : Position.advance none p = p := rfl

@[simp] theorem advance_some (p q : BlockPosition) :
    Position.advance (some p) q = ⟨max p.block q.block⟩ := rfl

theorem digitsValue_eq {cs : List Char} (h : ∀ c ∈ cs, c.isDigit) (acc : Nat) :
    digitsValue cs acc = some (Nat.ofDigitChars 10 cs acc) := by
  induction cs generalizing acc with
  | nil => rfl
  | cons c cs ih =>
    obtain ⟨hc, hcs⟩ := List.forall_mem_cons.mp h
    rw [digitsValue, if_pos hc, ih hcs, Nat.ofDigitChars_cons]

/-- Reading a decimal back: a `u64` or nothing. -/
theorem parseU64_toString (n : Nat) :
    parseU64 (toString n) = if n ≤ u64Max then some n else none := by
  have hdigits : ∀ c ∈ Nat.toDigits 10 n, c.isDigit := fun c hc =>
    Nat.isDigit_of_mem_toDigits (by decide) (by decide) hc
  have hlist : (toString n).toList = Nat.toDigits 10 n := Nat.toList_repr
  unfold parseU64
  rw [hlist]
  have hmatch : (match Nat.toDigits 10 n with
      | '+' :: cs => cs
      | cs => cs) = Nat.toDigits 10 n := by
    split
    · rename_i cs heq
      exact absurd (hdigits '+' (by rw [heq]; simp)) (by decide)
    · rfl
  simp only [hmatch]
  rw [if_neg Nat.toDigits_ne_nil, digitsValue_eq hdigits, Nat.ofDigitChars_ten_toDigits]
  simp only [Option.filter_some, decide_eq_true_eq]

/-- A negative number is not a block. -/
theorem parseU64_negSucc (n : Nat) : parseU64 (toString (Int.negSucc n)) = none := by
  have hlist : (toString (Int.negSucc n)).toList = '-' :: Nat.toDigits 10 (n + 1) := by
    show ("-" ++ (n + 1).repr).toList = _
    rw [String.toList_append, Nat.toList_repr]
    rfl
  unfold parseU64
  rw [hlist]
  rfl

theorem decode_ok_iff {s : String} {p : BlockPosition} :
    (PositionEncoding.decode s : Except Error BlockPosition) = .ok p
      ↔ parseU64 s = some p.block := by
  simp only [PositionEncoding.decode]
  cases parseU64 s with
  | none => simp
  | some n =>
    rw [Except.ok.injEq, Option.some.injEq]
    exact ⟨fun h => by rw [← h], fun h => by rw [h]⟩

theorem decode_le {s : String} {p : BlockPosition}
    (h : (PositionEncoding.decode s : Except Error BlockPosition) = .ok p) : p.block ≤ u64Max := by
  rw [decode_ok_iff] at h
  obtain ⟨-, hfilter⟩ := ite_eq_iff.mp h |>.resolve_left fun h => nomatch h.2
  exact of_decide_eq_true (Option.filter_eq_some_iff.mp hfilter).2

theorem decode_encode {p : BlockPosition} (h : p.block ≤ u64Max) :
    PositionEncoding.decode (PositionEncoding.encode p) = Except.ok p := by
  rw [decode_ok_iff]
  exact (parseU64_toString _).trans (if_pos h)

/-- The decimal text of an integer decodes to nothing but that integer. -/
theorem decode_toString {i : Int} {p : BlockPosition}
    (h : (PositionEncoding.decode (toString i) : Except Error BlockPosition) = .ok p) :
    i = p.block := by
  rw [decode_ok_iff] at h
  cases i with
  | negSucc n =>
    rw [parseU64_negSucc] at h
    exact nomatch h
  | ofNat n =>
    have htext : toString (Int.ofNat n) = toString n := rfl
    rw [htext, parseU64_toString] at h
    split at h
    · rw [Option.some.injEq] at h
      rw [← h]
      rfl
    · exact nomatch h

theorem resumeKey_of_lt {p : BlockPosition} (h : p.block < u64Max) :
    Position.resumeKey p = p.block + 1 :=
  saturatingAdd_of_le h

end BlockPosition

/-! ### Time frontiers -/

/-- The reference `(time, hash-set)` frontier: the boundary instant in milliseconds and the
identities observed at that instant. -/
structure TimeFrontier where
  timeMs : Nat
  seen : Finset String
  deriving DecidableEq

instance : Position TimeFrontier where
  reobservation := .dedupe
  sortKey p := p.timeMs
  fromSortKey key := ⟨key, ∅⟩
  advance
    | none, next => next
    | some prev, next =>
      if prev.timeMs < next.timeMs then next
      else if next.timeMs < prev.timeMs then prev
      else ⟨prev.timeMs, prev.seen ∪ next.seen⟩
  contains w pos :=
    decide (pos.timeMs < w.timeMs) || (decide (pos.timeMs = w.timeMs) && decide (pos.seen ⊆ w.seen))
  resumeKey p := p.timeMs

/-! ### Laws -/

/-- The laws of a position that the writers lean on: `advance` follows the higher sort key, and
coverage respects the sort keys. -/
class LawfulPosition (P : Type) [Position P] : Prop where
  advance_none : ∀ p : P, Position.advance none p = p
  sortKey_advance : ∀ p q : P, Position.sortKey (Position.advance (some p) q)
    = max (Position.sortKey p) (Position.sortKey q)
  advance_of_lt : ∀ p q : P, Position.sortKey p < Position.sortKey q →
    Position.advance (some p) q = q
  le_of_contains : ∀ w p : P, Position.contains w p = true → Position.sortKey p ≤ Position.sortKey w
  contains_of_lt : ∀ w p : P, Position.sortKey p < Position.sortKey w → Position.contains w p = true

instance : LawfulPosition BlockPosition where
  advance_none _ := rfl
  sortKey_advance _ _ := rfl
  advance_of_lt p q h := by
    have hlt : p.block < q.block := h
    show (⟨max p.block q.block⟩ : BlockPosition) = q
    rw [Nat.max_eq_right (Nat.le_of_lt hlt)]
  le_of_contains _ _ h := of_decide_eq_true h
  contains_of_lt _ _ h := decide_eq_true (Nat.le_of_lt h)

instance : LawfulPosition TimeFrontier where
  advance_none _ := rfl
  sortKey_advance p q := by
    rcases Nat.lt_trichotomy p.timeMs q.timeMs with h | h | h
    · simp only [Position.advance, if_pos h, Position.sortKey, Nat.max_eq_right (Nat.le_of_lt h)]
    · have hlt : ¬ p.timeMs < q.timeMs := by omega
      have hgt : ¬ q.timeMs < p.timeMs := by omega
      simp only [Position.advance, if_neg hlt, if_neg hgt, Position.sortKey]
      omega
    · have hlt : ¬ p.timeMs < q.timeMs := by omega
      simp only [Position.advance, if_neg hlt, if_pos h, Position.sortKey]
      omega
  advance_of_lt p q h := if_pos h
  le_of_contains w p h := by
    rcases Bool.or_eq_true_iff.mp h with h | h
    · exact Nat.le_of_lt (of_decide_eq_true h)
    · exact Nat.le_of_eq (of_decide_eq_true (Bool.and_eq_true_iff.mp h).1)
  contains_of_lt w p h := Bool.or_eq_true_iff.mpr (.inl (decide_eq_true h))

/-- The laws of a position that resuming leans on: a sort key has a position, and the resume key
does not go below the sort key, nor stays at it where a re-observation halts. -/
class ResumablePosition (P : Type) [Position P] : Prop extends LawfulPosition P where
  sortKey_fromSortKey : ∀ k, Position.sortKey (Position.fromSortKey k : P) = k
  le_resumeKey : ∀ p : P, Position.sortKey p ≤ u64Max → Position.sortKey p ≤ Position.resumeKey p
  lt_resumeKey : Position.reobservation P = .halt → ∀ p : P, Position.sortKey p < u64Max →
    Position.sortKey p < Position.resumeKey p

/-- The law of an encoding: reading back what was written. -/
class LawfulEncoding (P : Type) [Position P] [PositionEncoding P] : Prop where
  decode_encode : ∀ p : P, Position.sortKey p ≤ u64Max →
    PositionEncoding.decode (PositionEncoding.encode p) = Except.ok p

instance : LawfulEncoding BlockPosition where
  decode_encode _ h := BlockPosition.decode_encode h

instance : ResumablePosition BlockPosition where
  sortKey_fromSortKey _ := rfl
  le_resumeKey p h := by
    show p.block ≤ min (p.block + 1) u64Max
    have hle : p.block ≤ u64Max := h
    omega
  lt_resumeKey _ p h := by
    rw [BlockPosition.resumeKey_of_lt h]
    exact Nat.lt_succ_self _

instance : ResumablePosition TimeFrontier where
  sortKey_fromSortKey _ := rfl
  le_resumeKey _ _ := Nat.le_refl _
  lt_resumeKey h := absurd h (by decide)

end ArtemisLight
