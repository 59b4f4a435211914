import CompositeCrd.Schema.Raw

/-!
# Formats of documents

The records of this library are described once, over any format that has what they need. A
`RecordFormat` says how it treats texts, enumerations, optional values, lists, and records made
from their fields; a `DocumentFormat` in addition treats truth values, numbers, tables, and
embedded schemas.

JSON is a format in both directions (`Json.Codec`). YAML, which manifests may be written in
too, is one for reading.
-/

namespace CompositeCrd

/-- What a format must provide for records of texts. -/
class RecordFormat (C : Type → Type) where
  /-- Texts. -/
  text : C String
  /-- Enumerations. -/
  spelled {α : Type} [Spelled α] : C α
  /-- Values that may be absent. -/
  nullable {α : Type} : C α → C (Option α)
  /-- Lists. -/
  list {α : Type} : C α → C (List α)
  /-- Records, made from their fields and taken apart. -/
  record {σ α β : Type} : Fields C σ β → (β → α) → (α → β) → C α

/-- What a format must provide for each kind of field. -/
class DocumentFormat (C : Type → Type) extends RecordFormat C where
  /-- Truth values. -/
  flag : C Bool
  /-- Integers of 32 bits. -/
  int32 : C Int32
  /-- Tables. -/
  map {α : Type} : C α → C (SortedMap α)
  /-- Embedded schemas. -/
  rawSchema : C RawSchema

instance : DocumentFormat Json.Codec where
  text := .text
  spelled := .spelled
  nullable := .nullable
  list := .list
  record := .record
  flag := .flag
  int32 := .int32
  map := .map
  rawSchema := RawSchema.codec

namespace Fields

open RecordFormat DocumentFormat

variable {C : Type → Type} {α β σ : Type}

/-- A value that may be absent, and is not written then. -/
def optional [RecordFormat C] (name : String) (codec : C α) (rest : Fields C σ β) :
    Fields C (Option (Option α) × σ) (Option α × β) :=
  omitted name (nullable codec) none Option.isNone rest

/-- A list that may be missing, and is not written when it is empty. -/
def listed [RecordFormat C] (name : String) (codec : C α) (rest : Fields C σ β) :
    Fields C (Option (List α) × σ) (List α × β) :=
  omitted name (list codec) [] List.isEmpty rest

/-- A table that may be missing, and is not written when it is empty. -/
def mapped [DocumentFormat C] (name : String) (codec : C α) (rest : Fields C σ β) :
    Fields C (Option (SortedMap α) × σ) (SortedMap α × β) :=
  omitted name (map codec) SortedMap.empty SortedMap.isEmpty rest

end Fields

end CompositeCrd
