import ArtemisLight.Persistence.Schema

/-!
# What a backend takes for one name

A `CREATE TABLE` is refused if two of its columns have one name, and what one name is differs
between the backends: SQLite ignores the case of an identifier, PostgreSQL keeps its first 63 bytes.
-/

namespace ArtemisLight

/-- The columns that `CREATE TABLE` lists for a write schema. -/
def TableSchema.tableColumns (schema : TableSchema) : List Column :=
  ⟨blockNumberColumn, .integer⟩ :: schema.columns

/-- How a backend compares the identifiers of a `CREATE TABLE`. -/
structure Identifiers where
  /-- Two names with the same fold are one identifier. -/
  fold : String → String
  /-- The columns that every table has of itself. -/
  system : List String
  implicit : fold blockNumberColumn ≠ fold payloadColumn
  block_free : fold blockNumberColumn ∉ system
  payload_free : fold payloadColumn ∉ system

namespace Identifiers

variable (ids : Identifiers)

/-- What a `CREATE TABLE` asks of the columns that it lists. -/
structure Distinct (names : List String) : Prop where
  nodup : (names.map ids.fold).Nodup
  system : ∀ name ∈ names, ids.fold name ∉ ids.system

/-- Names that can stand beside the implicit columns. -/
structure Free (names : List String) : Prop where
  nodup : (names.map ids.fold).Nodup
  block : ∀ name ∈ names, ids.fold name ≠ ids.fold blockNumberColumn
  payload : ∀ name ∈ names, ids.fold name ≠ ids.fold payloadColumn
  system : ∀ name ∈ names, ids.fold name ∉ ids.system

instance (names : List String) : Decidable (ids.Distinct names) :=
  decidable_of_iff ((names.map ids.fold).Nodup ∧ ∀ name ∈ names, ids.fold name ∉ ids.system)
    ⟨fun h => ⟨h.1, h.2⟩, fun h => ⟨h.nodup, h.system⟩⟩

theorem implicit_ne : blockNumberColumn ≠ payloadColumn := by decide

/-- A backend that compares identifiers as they are. -/
def exact : Identifiers where
  fold name := name
  system := []
  implicit := implicit_ne
  block_free := List.not_mem_nil
  payload_free := List.not_mem_nil

/-- ASCII lower case. -/
def foldCase (name : String) : String := String.ofList (name.toList.map Char.toLower)

theorem foldCase_implicit : foldCase blockNumberColumn ≠ foldCase payloadColumn := by decide

/-- SQLite compares identifiers without regard to ASCII case. -/
def sqlite : Identifiers where
  fold := foldCase
  system := []
  implicit := foldCase_implicit
  block_free := List.not_mem_nil
  payload_free := List.not_mem_nil

/-- The longest prefix that takes at most so many bytes. -/
def clip : Nat → List Char → List Char
  | _, [] => []
  | bytes, c :: cs => if c.utf8Size ≤ bytes then c :: clip (bytes - c.utf8Size) cs else []

/-- A quoted identifier of PostgreSQL, which keeps 63 bytes of it. -/
def truncate (name : String) : String := String.ofList (clip 63 name.toList)

/-- The system columns of PostgreSQL. -/
def systemColumns : List String := ["tableoid", "xmin", "cmin", "xmax", "cmax", "ctid"]

theorem truncate_implicit : truncate blockNumberColumn ≠ truncate payloadColumn := by decide

theorem truncate_block_free : truncate blockNumberColumn ∉ systemColumns := by decide

theorem truncate_payload_free : truncate payloadColumn ∉ systemColumns := by decide

/-- PostgreSQL compares quoted identifiers as they are, after cutting them off. -/
def postgres : Identifiers where
  fold := truncate
  system := systemColumns
  implicit := truncate_implicit
  block_free := truncate_block_free
  payload_free := truncate_payload_free

end Identifiers

end ArtemisLight
