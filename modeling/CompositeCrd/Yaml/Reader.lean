import CompositeCrd.DocumentFormat
import CompositeCrd.Yaml.Core
import CompositeCrd.Yaml.Node

/-!
# Reading values from nodes

A `Reader` gives a value for a node or nothing. Aliases stand for the nodes that they refer to;
since a few of them can make an endless document, the number of aliases that are followed is
limited to a hundred for each mark of the document, and the depth of lists and mappings that
are entered to `maxDepth`.

What a scalar is depends on who asks: a field for a text takes any scalar as it is written,
while embedded schemas and fields for numbers and truth values take unquoted scalars for what
they look like. Tags of the core schema settle what a scalar is; other tags name the value of
an enumeration.

A record can also be written as a list of its fields, and an empty record, list or table as
nothing at all.
-/

namespace CompositeCrd.Yaml

/-- Steps of reading, which may fail, and count down the aliases that may still be followed. -/
abbrev Steps := StateT Nat Option

/-- A reader for values of a type, given the anchored nodes, the last first, and the number of
lists and mappings that may still be entered. -/
structure Reader (α : Type) where
  /-- Reads a value from a node. -/
  read : List (Nat × Node) → (depth : Nat) → Node → Steps α

/-- The greatest number of lists and mappings inside each other. -/
def maxDepth : Nat :=
  128

/-- The number of aliases that may be followed in a document. -/
def aliasLimit (root : Node) : Nat :=
  root.size * 100

/-- A result that may be missing, as a step. -/
def ofOption {α : Type} : Option α → Steps α
  | some a => pure a
  | none => failure

/-- The node itself, or the one that it refers to. -/
def follow (anchors : List (Nat × Node)) : Node → Steps Node
  | .alias number => do
    match ← get with
    | 0 => failure
    | left + 1 =>
      set left
      -- Each use of an alias takes one of the steps that are left.
      match anchors.find? (·.1 = number) with
      | some (_, n) => return n
      | none => failure
  | n => return n

/-- Goes on inside a list or mapping, if `depth` allows for one more. -/
def enter {α : Type} (depth : Nat) (inside : Nat → Steps α) : Steps α :=
  match depth with
  | 0 => failure
  | depth + 1 => inside depth

/-! ### Tags -/

/-- A tag of the core schema. -/
def coreTag (name : String) : Tag :=
  Utf8.encode ("tag:yaml.org,2002:" ++ name)

/-- The name in a tag of the document's own, which is the tag without its exclamation mark. -/
def localTag? : Option Tag → Option String
  | some (b :: name) =>
    if b = 0x21 then Utf8.decode? (if name.isEmpty then [b] else name) else none
  | _ => none

/-- What a scalar stands for. The tags of the core schema decide that even between quotes. -/
def scalar? (tag : Option Tag) (style : ScalarStyle) (text : List Char) : Option Resolved :=
  match tag with
  | none => some untagged
  | some t =>
    if t = coreTag "bool" then (bool? text).map .bool
    else if t = coreTag "int" then integer? text
    else if t = coreTag "float" then floating? text
    else if t = coreTag "null" then if isNull text then some .null else none
    -- A tag that starts with an exclamation mark is unknown here.
    else if t.head? = some 0x21 then some untagged
    else some .text
where
  /-- What the scalar looks like, if it is not quoted. -/
  untagged : Resolved :=
    if style = .plain then resolve text else .text

/-- Whether fields for numbers and truth values take a scalar for what it looks like: one without
quotes, or a block with the tag of the field. -/
def isBare (tag : Option Tag) (style : ScalarStyle) (wanted : Tag) : Bool :=
  style = .plain || (style = .literal && tag = some wanted)

/-- Whether there is nothing at a node. -/
def isMissing : Node → Bool
  | .scalar _ _ style text => style = .plain && text.isEmpty
  | _ => false

/-! ### Embedded values -/

/-- The JSON value that a scalar stands for. Infinities have none, and count as `null`; integers
of more than 64 bits have none either, and are refused. -/
def Resolved.jsonValue? (text : List Char) : Resolved → Option Json.Value
  | .null => some .null
  | .bool b => some (.bool b)
  | .int n => if Json.Number.fits n then some (.number (.int n)) else none
  | .float x => some (.number (.float x))
  -- JSON has no numbers for these two.
  | .infinite _ => some .null
  | .nan => some .null
  | .text => some (.string (String.ofList text))

/-- The text of a scalar, as it is written. -/
def readText (anchors : List (Nat × Node)) (n : Node) : Steps String := do
  match ← follow anchors n with
  | .scalar _ _ _ text => return String.ofList text
  | _ => failure

/-- The JSON value of a node. Keys are texts as they are written, and of repeated keys the last
counts. Tags of the document's own have no place in it. -/
def jsonValue (anchors : List (Nat × Node)) : (depth : Nat) → Node → Steps Json.Value
  | depth, n => do
    match ← follow anchors n with
    | .scalar _ tag style text =>
      if (localTag? tag).isSome then failure
      ofOption ((← ofOption (scalar? tag style text)).jsonValue? text)
    | .list _ tag items =>
      if (localTag? tag).isSome then failure
      match depth with
      | 0 => failure
      | depth + 1 => return .array (← items.mapM (jsonValue anchors depth))
    | .mapping _ tag entries =>
      if (localTag? tag).isSome then failure
      match depth with
      | 0 => failure
      | depth + 1 =>
        -- Of members with one key the last is kept.
        let members ← entries.mapM fun e => do
          let key ← readText anchors e.1
          return (key, ← jsonValue anchors depth e.2)
        return .object (Keyed.ofList members)
    | .alias _ => failure

namespace Reader

variable {α β σ : Type}

/-- Texts. -/
def text : Reader String where
  read anchors _ n := readText anchors n

/-- Truth values. -/
def flag : Reader Bool where
  read anchors _ n := do
    match ← follow anchors n with
    | .scalar _ tag style text =>
      if isBare tag style (coreTag "bool") then ofOption (bool? text) else failure
    | _ => failure

/-- Integers of 32 bits. -/
def int32 : Reader Int32 where
  read anchors _ n := do
    match ← follow anchors n with
    | .scalar _ tag style text =>
      if isBare tag style (coreTag "int") then
        let n ← ofOption (int? text)
        ofOption (Json.int32? n)
      else failure
    | _ => failure

/-- Enumerations: the spelling as a text, or as a tag for nothing. -/
def spelled [Spelled α] : Reader α where
  read anchors _ n := do
    match ← follow anchors n with
    | .scalar _ tag style text =>
      match localTag? tag with
      | none => ofOption (Spelled.ofText? (String.ofList text))
      -- A tag names the choice, and then nothing may be written behind it.
      | some name =>
        if style = .plain ∧ (text.isEmpty ∨ isNull text) then ofOption (Spelled.ofText? name)
        else failure
    | _ => failure

/-- Whether a node says that an optional value is absent. Nothing but a `null` can have the tag
for that. -/
def isAbsent : Node → Option Bool
  | .scalar _ tag style text =>
    if style ≠ .plain then some false
    else if tag = some (coreTag "null") then if isNull text then some true else none
    else if tag.isSome then some false
    else some (text.isEmpty || isNull text)
  | _ => some false

/-- Values that may be absent. -/
def nullable (r : Reader α) : Reader (Option α) where
  read anchors depth n := do
    let n ← follow anchors n
    if ← ofOption (isAbsent n) then return none else return some (← r.read anchors depth n)

/-- Lists. -/
def list (r : Reader α) : Reader (List α) where
  read anchors depth n := do
    match ← follow anchors n with
    | .list _ _ items => enter depth fun depth => items.mapM (r.read anchors depth)
    | n => if isMissing n then return [] else failure

/-- Tables; of repeated keys the last counts. -/
def map (r : Reader α) : Reader (SortedMap α) where
  read anchors depth n := do
    match ← follow anchors n with
    | .mapping _ _ entries =>
      let insert (depth : Nat) (m : SortedMap α) (e : Node × Node) : Steps (SortedMap α) := do
        let key ← readText anchors e.1
        return m.insert key (← r.read anchors depth e.2)
      enter depth fun depth => entries.foldlM (insert depth) SortedMap.empty
    | n => if isMissing n then return .empty else failure

/-- Embedded schemas. -/
def rawSchema : Reader RawSchema where
  read anchors depth n := do
    match ← jsonValue anchors depth n with
    | .null => failure
    | v => return RawSchema.ofValue v

/-- Fills the slots of a record from the entries of a mapping. Unknown keys are skipped. -/
def fill (fields : Fields Reader σ β) (anchors : List (Nat × Node)) (depth : Nat) :
    List (Node × Node) → σ → Steps σ
  | [], slots => return slots
  | (k, v) :: entries, slots => do
    let key ← readText anchors k
    let read {α : Type} (r : Reader α) : Steps α := r.read anchors depth v
    match fields.put (m := Steps) read (fun _ => failure) key slots with
    | some filled => fill fields anchors depth entries (← filled)
    -- What has no field is not looked at.
    | none => fill fields anchors depth entries slots

/-- Reads a record from the items of a list. Trailing fields may be missing if they have a value
for that. -/
def readFields (anchors : List (Nat × Node)) (depth : Nat) :
    {σ β : Type} → Fields Reader σ β → List Node → Steps β
  | _, _, .done, [] => return ()
  | _, _, .done, _ :: _ => failure
  | _, _, .field _ r _ _ fields, n :: ns => do
    let a ← r.read anchors depth n
    return (a, ← readFields anchors depth fields ns)
  -- The list has ended, and the other fields have to do without it.
  | _, _, .field _ _ absent _ fields, [] => do
    let a ← ofOption absent
    return (a, ← readFields anchors depth fields [])

/-- The record in slots that are filled. -/
def finish (fields : Fields Reader σ β) (make : β → α) (slots : σ) : Steps α :=
  match fields.finish slots with
  | .ok b => return make b
  | .error _ => failure

/-- Records, made from their fields by `make`. -/
def record (fields : Fields Reader σ β) (make : β → α) : Reader α where
  read anchors depth n := do
    match ← follow anchors n with
    | .mapping _ _ entries => enter depth fun depth => do
      finish fields make (← fill fields anchors depth entries fields.empty)
    | .list _ _ items => enter depth fun depth => do
      return make (← readFields anchors depth fields items)
    -- Nothing at all stands for a record of which all fields are absent.
    | n => if isMissing n then finish fields make fields.empty else failure

/-- Reads a value from the node that is a whole document. -/
def ofRoot? (r : Reader α) (root : Node) : Option α :=
  (r.read root.anchored.reverse maxDepth root).run' (aliasLimit root)

/-- Reads a value from a text. -/
def ofText? (r : Reader α) (s : String) : Option α := do
  r.ofRoot? (← Node.ofText? s.toList)

end Reader

instance : DocumentFormat Reader where
  text := .text
  spelled := .spelled
  nullable := .nullable
  list := .list
  record fields make _ := .record fields make
  flag := .flag
  int32 := .int32
  map := .map
  rawSchema := .rawSchema

end CompositeCrd.Yaml
