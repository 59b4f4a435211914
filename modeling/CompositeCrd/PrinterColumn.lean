import CompositeCrd.DocumentFormat

/-!
# Printer columns

The columns that a client shows when it lists resources. Those of the standard tables follow
the columns of a definition's author.
-/

namespace CompositeCrd

open RecordFormat DocumentFormat

/-- A column of a list of resources. -/
structure PrinterColumn where
  /-- The heading. -/
  name : String
  /-- The type of the values. -/
  type : String
  /-- The path of the values inside a resource. -/
  jsonPath : String
  /-- What the column shows. -/
  description : Option String := none
  /-- The format of the values. -/
  format : Option String := none
  /-- How readily the column is left out; absent means never. -/
  priority : Option Int32 := none
deriving DecidableEq

namespace PrinterColumn

/-- The document form. -/
def form {C : Type → Type} [DocumentFormat C] : C PrinterColumn :=
  record
    (.required "name" text <| .required "type" text <| .required "jsonPath" text <|
      .optional "description" text <| .optional "format" text <|
      .optional "priority" int32 .done)
    (fun (name, type, jsonPath, description, format, priority, _) =>
      { name, type, jsonPath, description, format, priority })
    (fun c => (c.name, c.type, c.jsonPath, c.description, c.format, c.priority, ()))

/-- Whether the resource is ready. -/
def ready : PrinterColumn where
  name := "READY"
  type := "string"
  jsonPath := ".status.conditions[?(@.type=='Ready')].status"

/-- The composition that was selected. -/
def composition : PrinterColumn where
  name := "COMPOSITION"
  type := "string"
  jsonPath := ".spec.compositionRef.name"

/-- The secret that connection details are written to. -/
def connectionSecret : PrinterColumn where
  name := "CONNECTION-SECRET"
  type := "string"
  jsonPath := ".spec.writeConnectionSecretToRef.name"

/-- How long the resource has existed. -/
def age : PrinterColumn where
  name := "AGE"
  type := "date"
  jsonPath := ".metadata.creationTimestamp"

end PrinterColumn

end CompositeCrd
