import CompositeCrd.Json.Codec
import CompositeCrd.Json.Writer
import CompositeCrd.Schema.Basic

/-!
# Schema nodes as JSON

A node is written as an object: the keywords with a field of their own in a fixed order, those
that are unset or empty left out, and then the other keywords by name.

Reading accepts these keywords in any order, each at most once. A `null` stands for an unset
keyword, and for an empty node among the properties. The value of `items` and that of
`additionalProperties` has several shapes. It is first read as plain JSON, so that a fault in
it is reported as such, and then held against the shapes; if none fits, that is all that is
said. The other keywords may have any value, and of repeated ones the last counts.
-/

namespace CompositeCrd

open Json

/-- The keywords that have a field of their own. -/
inductive Keyword where
  | type
  | description
  | format
  | properties
  | required
  | items
  | additionalProperties
  | enumValues
  | default
  | nullable
  | preserveUnknownFields
deriving DecidableEq, Repr

instance : Spelled Keyword where
  all := [.type, .description, .format, .properties, .required, .items, .additionalProperties,
    .enumValues, .default, .nullable, .preserveUnknownFields]
  spell
    | .type => "type"
    | .description => "description"
    | .format => "format"
    | .properties => "properties"
    | .required => "required"
    | .items => "items"
    | .additionalProperties => "additionalProperties"
    | .enumValues => "enum"
    | .default => "default"
    | .nullable => "nullable"
    | .preserveUnknownFields => "x-kubernetes-preserve-unknown-fields"

namespace Schema

/-- A member of a written node, if the keyword has a value. -/
def member (keyword : Keyword) (v : Option Value) : List (String × Value) :=
  match v with
  | some v => [(Spelled.spell keyword, v)]
  | none => []

/-- A list, unless it is empty. -/
def unlessEmpty (items : List Value) : Option Value :=
  if items.isEmpty then none else some (.array items)

mutual

/-- The object that a node is written as. -/
def toValue : Schema → Value
  | ⟨type, description, format, properties, required, items, additional, enum, default, nullable,
      preserve, extra⟩ =>
    .object <|
      member .type (type.map .string)
        ++ member .description (description.map .string)
        ++ member .format (format.map .string)
        ++ member .properties (propertiesValue properties)
        ++ member .required (unlessEmpty (required.map .string))
        ++ member .items (itemsValue items)
        ++ member .additionalProperties (additionalValue additional)
        ++ member .enumValues (unlessEmpty enum)
        ++ member .default default
        ++ member .nullable (if nullable then some (.bool true) else none)
        ++ member .preserveUnknownFields (preserve.map .bool)
        -- Keywords with a slot come first, the others behind them in order.
        ++ extra

/-- The value of the keyword `properties`. -/
def propertiesValue : List (String × Schema) → Option Value
  | [] => none
  | (k, s) :: rest => some (.object ((k, s.toValue) :: tableMembers rest))

/-- The members that a property tree is written as. -/
def tableMembers : List (String × Schema) → List (String × Value)
  | [] => []
  | (k, s) :: rest => (k, s.toValue) :: tableMembers rest

/-- The value of the keyword `items`. -/
def itemsValue : Option (ItemRule Schema) → Option Value
  | none => none
  | some (.every s) => some s.toValue
  | some (.positional ss) => some (.array (listValues ss))

/-- The values of a list of nodes. -/
def listValues : List Schema → List Value
  | [] => []
  | s :: ss => s.toValue :: listValues ss

/-- The value of the keyword `additionalProperties`. -/
def additionalValue : Option (AdditionalRule Schema) → Option Value
  | none => none
  | some (.allowed b) => some (.bool b)
  | some (.matching s) => some s.toValue

end

/-- The readings of a keyword's value as nodes, given the number of lists and objects that may
still be entered: as a node, as a list of nodes, and as a property tree. -/
structure Readings where
  /-- The value as a node. -/
  node : Nat → Decoded Schema
  /-- The value as a list of nodes. -/
  list : Nat → Decoded (List Schema)
  /-- The value as a property tree. -/
  tree : Nat → Decoded PropertyTree

/-- A value that was read already, or the complaint that none of its shapes fits. -/
def orNoAlternative {α : Type} : List (Decoded α) → Decoded α
  | [] => .error (.mismatch .noAlternative)
  | .ok a :: _ => .ok a
  | .error _ :: rest => orNoAlternative rest

/-- The value of the keyword `items`. -/
def itemsOf (depth : Nat) (t : Tree) (as : Readings) : Decoded (ItemRule Schema) := do
  let _ ← t.value depth
  orNoAlternative [(as.node depth).map .every, (as.list depth).map .positional]

/-- The value of the keyword `additionalProperties`. -/
def additionalOf (depth : Nat) (t : Tree) (as : Readings) : Decoded (AdditionalRule Schema) := do
  let _ ← t.value depth
  orNoAlternative [t.flag.map .allowed, (as.node depth).map .matching]

/-- The node with the keyword set to the value `t`. -/
def set (s : Schema) (depth : Nat) (t : Tree) (as : Readings) : Keyword → Decoded Schema
  | .type => return { s with type := ← t.optional Tree.text }
  | .description => return { s with description := ← t.optional Tree.text }
  | .format => return { s with format := ← t.optional Tree.text }
  -- A keyword that is `null` is absent.
  | .properties => return { s with properties := (← t.optional fun _ => as.tree depth).getD [] }
  | .required => do
    let names ← t.optional fun t => t.list depth fun _ t => t.text
    return { s with required := names.getD [] }
  | .items => return { s with items := ← t.optional fun t => itemsOf depth t as }
  | .additionalProperties =>
    return { s with additionalProperties := ← t.optional fun t => additionalOf depth t as }
  | .enumValues => do
    let values ← t.optional fun t => t.list depth Tree.value
    return { s with enumValues := values.getD [] }
  | .default => return { s with default := ← t.optional (Tree.value depth) }
  | .nullable => return { s with nullable := (← t.optional Tree.flag).getD false }
  | .preserveUnknownFields =>
    return { s with preserveUnknownFields := ← t.optional Tree.flag }

mutual

/-- Decodes a node. -/
def ofTree (depth : Nat) : Tree → Decoded Schema
  | .object members => match depth with
    | 0 => .error (.fault .malformed)
    | depth + 1 => ofMembers depth {} [] members
  | t => .error t.unexpected

/-- Goes on with a node, of which the keywords `seen` are set, at the next keyword. -/
def ofMembers (depth : Nat) (s : Schema) (seen : List Keyword) : Members → Decoded Schema
  | .closed => .ok s
  | .broken fault => .error (.fault fault)
  | .noKey _ => .error (.fault .malformed)
  | .badKey fault _ => .error (.fault fault)
  | .member key t rest => do
    let k ← keyText key
    -- A keyword without a slot is kept as the value it has, the last one of a name.
    match Spelled.ofText? k with
    | none =>
      let v ← t.value depth
      ofMembers depth { s with extra := Keyed.insert k v s.extra } seen rest
    | some keyword =>
      -- A keyword with a slot may be given once.
      if keyword ∈ seen then .error (.mismatch (.duplicateField k))
      else
        let as : Readings :=
          { node := fun depth => ofTree depth t
            list := fun depth => listOfTree depth t
            tree := fun depth => tableOfTree depth t }
        let s ← s.set depth t as keyword
        ofMembers depth s (keyword :: seen) rest

/-- Decodes a list of nodes. -/
def listOfTree (depth : Nat) : Tree → Decoded (List Schema)
  | .array items => match depth with
    | 0 => .error (.fault .malformed)
    | depth + 1 => listOfItems depth items
  | t => .error t.unexpected

/-- Decodes the nodes of a list, up to its end. -/
def listOfItems (depth : Nat) : Items → Decoded (List Schema)
  | .closed => .ok []
  | .broken fault => .error (.fault fault)
  | .item t rest => do
    let s ← ofTree depth t
    let ss ← listOfItems depth rest
    return s :: ss

/-- Decodes a property tree. -/
def tableOfTree (depth : Nat) : Tree → Decoded PropertyTree
  | .object members => match depth with
    | 0 => .error (.fault .malformed)
    | depth + 1 => tableOfMembers depth [] members
  | t => .error t.unexpected

/-- Decodes the entries of a property tree one by one into the table `m`; `null` is an empty
node. -/
def tableOfMembers (depth : Nat) (m : PropertyTree) : Members → Decoded PropertyTree
  | .closed => .ok m
  | .broken fault => .error (.fault fault)
  | .noKey _ => .error (.fault .malformed)
  | .badKey fault _ => .error (.fault fault)
  | .member key t rest => do
    let k ← keyText key
    -- Where a property should be described, `null` describes nothing.
    let s ← match t with
      | .null => .ok {}
      | t => ofTree depth t
    tableOfMembers depth (m.insert k s) rest

end

/-- The two directions between nodes and JSON. -/
def codec : Codec Schema where
  encode s := some s.toValue
  decode := ofTree

/-- The compact text of a node. -/
def compact (s : Schema) : String :=
  s.toValue.compact

end Schema

/-- The object that a property tree is written as. -/
def PropertyTree.toValue (tree : PropertyTree) : Value :=
  .object (Schema.tableMembers tree)

/-- Decodes a property tree on its own, in which every entry must be a node. -/
def PropertyTree.ofTree (depth : Nat) (t : Tree) : Decoded PropertyTree := do
  return Keyed.ofList (← t.members depth Schema.ofTree)

end CompositeCrd
