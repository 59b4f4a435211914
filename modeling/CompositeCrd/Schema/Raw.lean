import CompositeCrd.Schema.Json

/-!
# Schemas as they are given

A definition carries the validation schema of a version as the bytes of a JSON document, which
need not be a schema and need not even be JSON. Inside a manifest the document is embedded as
a value; what is stored is then the compact text of that value.

`specProperties` reads such a document as a schema node and gives the part that the author of a
definition contributes, the properties of the property `spec`.
-/

namespace CompositeCrd

open Json

/-- The bytes of a validation schema. -/
structure RawSchema where
  /-- The bytes. -/
  bytes : List UInt8
deriving DecidableEq

namespace RawSchema

/-- The bytes of a text. -/
def ofText (s : String) : RawSchema :=
  ⟨Utf8.encode s⟩

/-- The compact text of a value. -/
def ofValue (v : Value) : RawSchema :=
  ofText v.compact

/-- The bytes as a document. -/
def document (raw : RawSchema) : Document :=
  Document.ofBytes raw.bytes

/-- The value that the bytes write, if they are JSON. -/
def value? (raw : RawSchema) : Option Value :=
  (raw.document.decode Tree.value).toOption

/-- The bytes as text, with U+FFFD where they are none. -/
def text (raw : RawSchema) : String :=
  Utf8.decodeLossy raw.bytes

/-- Takes the value embedded in a manifest, which must not be `null`. -/
def embedded : Value → Decoded RawSchema
  | .null => .error (.mismatch .nullSchema)
  | v => .ok (ofValue v)

/-- The two directions between raw schemas and embedded values. -/
def codec : Codec RawSchema where
  encode := value?
  decode depth t := do embedded (← t.value depth)

end RawSchema

/-- The properties under `properties.spec.properties` of a raw schema. A schema that is absent
or `null`, or that declares no such properties, has none. -/
def specProperties : Option RawSchema → Decoded PropertyTree
  | none => .ok []
  | some raw => do
    let schema ← raw.document.decode fun depth t => t.optional (Schema.ofTree depth)
    let spec := schema.bind fun s => Keyed.find? "spec" s.properties
    return (spec.map (·.properties)).getD []

end CompositeCrd
