import CompositeCrd.Json.Value

/-!
# Schema nodes

A `Schema` is one node of an OpenAPI v3 validation schema, as custom resources use it. The
keywords that the library works with are fields; every other keyword is kept in `extra` with
its value, so that a schema survives being read and written.

The properties of a node are a table (`PropertyTree`) whose values are nodes again.
-/

namespace CompositeCrd

/-- The keyword `items`: one schema for every item of a list, or one for each position. -/
inductive ItemRule (α : Type) where
  /-- Every item is of this schema. -/
  | every (schema : α)
  /-- Each item is of the schema at its position. -/
  | positional (schemas : List α)

/-- The keyword `additionalProperties`: whether undeclared keys are allowed, or the schema of
their values. -/
inductive AdditionalRule (α : Type) where
  /-- Undeclared keys are allowed, or not. -/
  | allowed (b : Bool)
  /-- The values of undeclared keys are of this schema. -/
  | matching (schema : α)

/-- One node of a validation schema. -/
structure Schema where
  /-- The type of the values. -/
  type : Option String := none
  /-- What the values mean. -/
  description : Option String := none
  /-- The format of the values. -/
  format : Option String := none
  /-- The schemas of the declared properties. -/
  properties : List (String × Schema) := []
  /-- The properties that must be present. -/
  required : List String := []
  /-- The schemas of the items. -/
  items : Option (ItemRule Schema) := none
  /-- The rule for undeclared properties. -/
  additionalProperties : Option (AdditionalRule Schema) := none
  /-- The values to choose from. -/
  enumValues : List Json.Value := []
  /-- The value taken when none is given. -/
  default : Option Json.Value := none
  /-- Whether `null` is a value. -/
  nullable : Bool := false
  /-- Whether undeclared properties are kept. -/
  preserveUnknownFields : Option Bool := none
  /-- All other keywords. -/
  extra : List (String × Json.Value) := []
deriving Inhabited

/-- The schemas of properties, by name. -/
abbrev PropertyTree := Keyed Schema

namespace Schema

/-- A node of the given type, with nothing else set. -/
def typed (type : String) : Schema :=
  { type := some type }

/-- A plain object. -/
def object : Schema :=
  typed "object"

/-- A plain text. -/
def string : Schema :=
  typed "string"

/-- A list whose items are all of the schema `items`. -/
def array (items : Schema) : Schema :=
  { typed "array" with items := some (.every items) }

/-- The node with a property added or replaced. -/
def withProperty (s : Schema) (name : String) (schema : Schema) : Schema :=
  { s with properties := Keyed.insert name schema s.properties }

/-- The node with more properties required, behind those that are. -/
def withRequired (s : Schema) (names : List String) : Schema :=
  { s with required := s.required ++ names }

/-- The node with a format. -/
def withFormat (s : Schema) (format : String) : Schema :=
  { s with format := some format }

/-- The node with a description. -/
def withDescription (s : Schema) (description : String) : Schema :=
  { s with description := some description }

/-- The node with a schema for the values of undeclared keys. -/
def withAdditional (s : Schema) (schema : Schema) : Schema :=
  { s with additionalProperties := some (.matching schema) }

/-- The schema of every item, if there is a single one. -/
def itemSchema? (s : Schema) : Option Schema :=
  match s.items with
  | some (.every schema) => some schema
  | _ => none

mutual

/-- Equality of nodes. -/
def same : Schema → Schema → Bool
  | ⟨type, description, format, properties, required, items, additional, enum, default, nullable,
      preserve, extra⟩, t =>
    type == t.type && description == t.description && format == t.format
      && sameProperties properties t.properties && required == t.required
      && sameItems items t.items && sameAdditional additional t.additionalProperties
      && Json.sameItems enum t.enumValues
      -- A default may be any value, `null` among them.
      && (match default, t.default with
        | some v, some w => v.same w
        | none, none => true
        | _, _ => false)
      && nullable == t.nullable && preserve == t.preserveUnknownFields
      && Json.sameMembers extra t.extra

/-- Equality of tables of nodes. -/
def sameProperties : List (String × Schema) → List (String × Schema) → Bool
  | [], [] => true
  | (k, s) :: as, (l, t) :: bs => k == l && s.same t && sameProperties as bs
  | _, _ => false

/-- Equality of lists of nodes. -/
def sameAll : List Schema → List Schema → Bool
  | [], [] => true
  | s :: as, t :: bs => s.same t && sameAll as bs
  | _, _ => false

/-- Equality of rules for items. -/
def sameItems : Option (ItemRule Schema) → Option (ItemRule Schema) → Bool
  | none, none => true
  | some (.every s), some (.every t) => s.same t
  | some (.positional ss), some (.positional ts) => sameAll ss ts
  | _, _ => false

/-- Equality of rules for undeclared properties. -/
def sameAdditional :
    Option (AdditionalRule Schema) → Option (AdditionalRule Schema) → Bool
  | none, none => true
  | some (.allowed a), some (.allowed b) => a == b
  | some (.matching s), some (.matching t) => s.same t
  | _, _ => false

end

end Schema

end CompositeCrd
