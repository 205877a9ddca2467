import ArtemisLight.Persistence.Chain
import ArtemisLight.Persistence.Record

/-!
# Scripted sources and stores

The event, the source and the store that the tests of the persistence layer run it with: a
`ValueSet` event, a collector that answers from a script, and a store that keeps its archives in
memory and fails the writes it is told to.
-/

namespace ArtemisLight

/-! ### Events -/

/-- `event ValueSet(uint256 value)` -/
structure ValueSet where
  value : Nat
  deriving DecidableEq, Repr

namespace ValueSet

/-- The value as it is serialised: hexadecimal text. -/
def hex (n : Nat) : String := "0x" ++ String.ofList (Nat.toDigits 16 n)

def hexDigit (c : Char) : Nat :=
  if c.isDigit then c.toNat - '0'.toNat else c.toNat - 'a'.toNat + 10

/-- The compact JSON text; a value set serialises to no other shape. -/
def text : Value → String
  | .object [(name, .string s)] => "\x7b\"" ++ name ++ "\":\"" ++ s ++ "\"\x7d"
  | _ => ""

/-- The digits after `0x` up to the closing quote. -/
def fromStr (s : String) : Except Error ValueSet :=
  match s.toList.dropWhile (· ≠ 'x') with
  | 'x' :: digits => .ok ⟨(digits.takeWhile (· ≠ '"')).foldl (fun n c => 16 * n + hexDigit c) 0⟩
  | _ => .error "missing field value"

instance : SerdeJson ValueSet where
  toValue e := .ok (.object [("value", .string (hex e.value))])
  text := text
  fromStr := fromStr

/-- A record that writes value sets: nothing frozen yet, or their one column. -/
def Records (r : Record) : Prop :=
  r = .inferred "value_set" ∨ r = ⟨"value_set", .inferred (some [⟨"value", .text⟩])⟩

/-- Every value set encodes. -/
theorem encodes (D : ValueSet → Prop) : Encodes D Records := by
  intro r hr e _
  refine ⟨⟨[.text (hex e.value), .text (eventPayload e)]⟩, _, ?_, Or.inr rfl⟩
  rcases hr with rfl | rfl <;> rfl

/-- The table name best guessed from the event's signature. -/
def table : String := "value_set"

end ValueSet

/-! ### Sources -/

/-- A source that answers from a script: its live stream, its blocks and its tip. -/
structure ScriptedCollector (E : Type) where
  live : List (Indexed BlockPosition E)
  blocks : List (List E)
  tip : Nat

/-- The events of a chain given block by block. -/
def chainOf {E : Type} (blocks : List (List E)) (k : Nat) : List E := blocks.getD k []

instance {E : Type} : PersistableCollector (ScriptedCollector E) BlockPosition E where
  subscribeIndexed c := (.ok c.live, c)
  queryRange c a b := (.ok (chainEvents (chainOf c.blocks) a.block b.block), c)
  tip c := (.ok ⟨c.tip⟩, c)

/-- The sources with these blocks whose live stream reports them from some height at most one above
the tip on. -/
def ScriptedCollector.Reports {E : Type} (blocks : List (List E)) (c : ScriptedCollector E) :
    Prop :=
  c.blocks = blocks ∧ ∃ m ≤ c.tip + 1, LiveFrom (chainOf blocks) m c.live

theorem ScriptedCollector.nonReorganising {E : Type} (blocks : List (List E)) :
    NonReorganising (chainOf blocks) (ScriptedCollector.Reports blocks) where
  query_closed _ hc _ _ := hc
  query_exact c hc a b stream c' h := by
    obtain ⟨h, -⟩ := Prod.mk.inj h
    rw [← Except.ok.inj h, hc.1]
  tip_closed _ hc := hc
  subscribe_closed _ hc := hc
  subscribe_live c hc live c₁ tip c₂ hl ht := by
    obtain ⟨hlive, rfl⟩ := Prod.mk.inj hl
    obtain ⟨htip, -⟩ := Prod.mk.inj ht
    rw [← Except.ok.inj hlive, ← Except.ok.inj htip]
    exact hc.2

theorem lt_length_of_chainOf {E : Type} {blocks : List (List E)} {k : Nat}
    (h : chainOf blocks k ≠ []) : k < blocks.length := by
  by_contra hk
  exact h (by simp [chainOf, List.getElem?_eq_none (Nat.le_of_not_lt hk)])

theorem ScriptedCollector.smallHeights {E ρ : Type} {p : Persisted ρ} {c : ScriptedCollector E}
    (hblocks : c.blocks.length + p.confirmationDepth ≤ i64Max)
    (htip : c.tip + p.confirmationDepth ≤ i64Max) : SmallHeights (chainOf c.blocks) p c where
  heights k hk := by
    have := lt_length_of_chainOf hk
    omega
  tip live c₁ tip c₂ hl ht := by
    have hc : c₁ = c := by
      unfold Persisted.liveSource at hl
      split at hl <;> exact (Prod.mk.inj hl).2.symm
    obtain ⟨ht, -⟩ := Prod.mk.inj ht
    rw [← Except.ok.inj ht, hc]
    exact htip

/-- A source whose live stream reports its blocks from the height `m` on. -/
def ScriptedCollector.from {E : Type} (blocks : List (List E)) (m tip : Nat) :
    ScriptedCollector E :=
  ⟨asLive (chainEvents (chainOf blocks) m blocks.length), blocks, tip⟩

theorem ScriptedCollector.reports_from {E : Type} (blocks : List (List E)) {m tip : Nat}
    (hm : m ≤ tip + 1) : ScriptedCollector.Reports blocks (.from blocks m tip) :=
  ⟨rfl, m, hm, blocks.length, List.prefix_refl _⟩

/-- A wrapper that infers its columns, with windows of two blocks. -/
def scriptedWrapper (start depth : Nat) (hd : 0 < depth) (toBlock : Option Nat) :
    Persisted Record where
  record := .ok (.inferred ValueSet.table)
  startBlock := start
  backfillChunkSize := 2
  chunk_pos := by decide
  confirmationDepth := depth
  depth_pos := hd
  toBlock := toBlock
  replayed := false

/-! ### Stores -/

/-- A store that keeps the archive of every table in memory and fails the writes listed in `fails`,
counting attempts from zero. -/
structure MemoryStore (P : Type) where
  archives : String → Archive P
  attempts : Nat
  fails : List Nat

namespace MemoryStore

variable {P : Type} [Position P]

/-- An empty store. -/
def new (fails : List Nat) : MemoryStore P := ⟨fun _ => .empty, 0, fails⟩

/-- A store holding one archive, whose writes succeed. -/
def holding (a : Archive P) : MemoryStore P := ⟨fun _ => a, 0, []⟩

def write (s : MemoryStore P) (schema : TableSchema) (position : P) (rows : List Row) :
    Except Error Unit × MemoryStore P :=
  if s.attempts ∈ s.fails then
    (.error "simulated write failure", { s with attempts := s.attempts + 1 })
  else
    (.ok (), { s with
      archives := fun table =>
        if table = schema.table then (s.archives table).commit position rows else s.archives table
      attempts := s.attempts + 1 })

instance : Archival (MemoryStore P) P where
  write := write
  storedPosition s table := .ok (s.archives table).position
  replay s schema position :=
    .ok (((s.archives schema.table).upTo (Position.sortKey position)).map fun r =>
      ⟨r.payload?.toList⟩)
  archive s table := s.archives table
  archive_write_ok h := by
    unfold write at h
    split at h
    · exact absurd h (by simp)
    · obtain ⟨-, rfl⟩ := Prod.mk.inj h
      simp
  archive_write_error h := by
    unfold write at h
    split at h
    · obtain ⟨-, rfl⟩ := Prod.mk.inj h
      rfl
    · exact absurd h (by simp)
  storedPosition_ok h := Except.ok.inj h
  replay_ok _ h := by
    rw [← Except.ok.inj h, List.map_map]
    rfl

/-- A store told to fail no write is reliable. -/
theorem reliable : Reliable P fun s : MemoryStore P => s.fails = [] := by
  intro s hs schema p rows
  have hw : s.attempts ∉ s.fails := by simp [hs]
  exact ⟨(s.write schema p rows).2, by simp only [Store.write, write, hw, if_false],
    by simpa only [write, hw, if_false] using hs⟩

end MemoryStore

end ArtemisLight
