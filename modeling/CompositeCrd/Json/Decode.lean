import CompositeCrd.Json.Document
import CompositeCrd.Record
import CompositeCrd.Text.Quoted

/-!
# Decoding values

A decoder takes a tree and the number of lists and objects that may still be entered, and gives
a value or the first thing that is wrong. `DecodeError` tells faults of the document from
mismatches, where a well-formed value has the wrong shape; `Mismatch.reason` words the latter.

Decoders for numbers, texts and the like accept one kind of value each. The one here that
accepts everything is `Tree.value`, for values that are embedded as they are.
-/

namespace CompositeCrd.Json

/-- What a decoder found in place of what it asked for. -/
inductive Found where
  /-- The value `null`. -/
  | null
  /-- A truth value. -/
  | bool (b : Bool)
  /-- A number. -/
  | number (n : Number)
  /-- A text. -/
  | string (s : String)
  /-- A list. -/
  | array
  /-- An object. -/
  | object

/-- What was found, as messages put it. -/
def Found.describe : Found → String
  | .null => "null"
  | .bool b => "boolean `" ++ (if b then "true" else "false") ++ "`"
  | .number (.int n) => "integer `" ++ String.ofList (Number.int n).chars ++ "`"
  | .number (.float x) => "floating point `" ++ String.ofList (Number.float x).chars ++ "`"
  | .string s => "string " ++ Text.quoted s
  | .array => "sequence"
  | .object => "map"

/-- Why a well-formed value is not what a decoder asked for. -/
inductive Mismatch where
  /-- A record lacks the field. -/
  | missingField (name : String)
  /-- A record has the field twice. -/
  | duplicateField (name : String)
  /-- No value of the enumeration is spelled like this. -/
  | unknownVariant (spelling : String)
  /-- The value is of the wrong kind. -/
  | invalidType (found : Found)
  /-- The number is out of the range of its field. -/
  | invalidValue (found : Found)
  /-- A record written as a list ends before the field at this position. -/
  | invalidLength (position : Nat)
  /-- None of the shapes that the value may have fits. -/
  | noAlternative
  /-- A validation schema is `null`. -/
  | nullSchema

/-- The wording of a mismatch. -/
def Mismatch.reason : Mismatch → String
  | .missingField name => "missing field " ++ name
  | .duplicateField name => "duplicate field " ++ name
  | .unknownVariant spelling => "unknown variant " ++ spelling
  | .invalidType found => "invalid type: " ++ found.describe
  | .invalidValue found => "invalid value: " ++ found.describe
  | .invalidLength position => "invalid length " ++ toString position
  | .noAlternative => "data did not match any variant"
  | .nullSchema => "validation schema cannot be null"

/-- Why a document cannot be decoded. -/
inductive DecodeError where
  /-- The document cannot be read. -/
  | fault (f : Fault)
  /-- The document is not of the right shape. -/
  | mismatch (m : Mismatch)

/-- The wording of an error. -/
def DecodeError.message : DecodeError → String
  | .fault .malformed => "malformed document"
  | .fault .truncated => "the document ends too early"
  | .mismatch m => m.reason

/-- The outcome of decoding. -/
abbrev Decoded (α : Type) := Except DecodeError α

/-- The number of lists and objects that may be nested in a document. -/
def maxDepth : Nat := 127

/-- Goes on inside a list or object, if `depth` allows for one more. -/
def enter {α : Type} (depth : Nat) (inside : Nat → Decoded α) : Decoded α :=
  match depth with
  | 0 => .error (.fault .malformed)
  | depth + 1 => inside depth

/-- A key that is a text. -/
def keyText : Option String → Decoded String
  | some k => .ok k
  | none => .error (.fault .malformed)

/-- The error of a decoder that asked for something else. -/
def Tree.unexpected : Tree → DecodeError
  | .null => .mismatch (.invalidType .null)
  | .bool b => .mismatch (.invalidType (.bool b))
  | .number (some n) => .mismatch (.invalidType (.number n))
  -- A number out of range, or a text with a broken character: the document has none such.
  | .number none => .fault .malformed
  | .string (some s) => .mismatch (.invalidType (.string s))
  | .string none => .fault .malformed
  | .array _ => .mismatch (.invalidType .array)
  | .object _ => .mismatch (.invalidType .object)
  | .broken f _ => .fault f

/-- A text. -/
def Tree.text : Tree → Decoded String
  | .string (some s) => .ok s
  | t => .error t.unexpected

/-- A truth value. -/
def Tree.flag : Tree → Decoded Bool
  | .bool b => .ok b
  | t => .error t.unexpected

/-- An integer of 32 bits. -/
def Tree.int32 : Tree → Decoded Int32
  | .number (some (.int n)) =>
    match int32? n with
    | some k => .ok k
    | none => .error (.mismatch (.invalidValue (.number (.int n))))
  | t => .error t.unexpected

/-- A value that may be `null`. -/
def Tree.optional {α : Type} (decode : Tree → Decoded α) : Tree → Decoded (Option α)
  | .null => .ok none
  | t => (decode t).map some

/-- Decodes the items of a list in order, up to its end. -/
def Items.decode {α : Type} (f : Tree → Decoded α) : Items → Decoded (List α)
  | .closed => .ok []
  | .broken fault => .error (.fault fault)
  | .item t rest => do
    let a ← f t
    let as ← rest.decode f
    return a :: as

/-- A list of values. -/
def Tree.list {α : Type} (depth : Nat) (f : Nat → Tree → Decoded α) : Tree → Decoded (List α)
  | .array items => enter depth fun depth => items.decode (f depth)
  | t => .error t.unexpected

/-- Decodes the members of an object in order, up to its end. -/
def Members.decode {α : Type} (f : Tree → Decoded α) : Members → Decoded (List (String × α))
  | .closed => .ok []
  | .broken fault => .error (.fault fault)
  | .noKey _ => .error (.fault .malformed)
  | .badKey fault _ => .error (.fault fault)
  | .member key t rest => do
    let k ← keyText key
    let a ← f t
    let more ← rest.decode f
    return (k, a) :: more

/-- An object with any keys. -/
def Tree.members {α : Type} (depth : Nat) (f : Nat → Tree → Decoded α) :
    Tree → Decoded (List (String × α))
  | .object members => enter depth fun depth => members.decode (f depth)
  | t => .error t.unexpected

/-- The closing brace behind the one member of an object that spells out an enumeration. -/
def Members.close : Members → Decoded Unit
  | .closed => .ok ()
  | .broken fault => .error (.fault fault)
  | _ => .error (.fault .malformed)

/-- An enumeration's value, by its spelling. -/
def variant {α : Type} [Spelled α] (s : String) : Decoded α :=
  match Spelled.ofText? s with
  | some a => .ok a
  | none => .error (.mismatch (.unknownVariant s))

/-- An enumeration's value: its spelling, or an object whose only key it is, with `null` under
it. -/
def Tree.variant {α : Type} [Spelled α] (depth : Nat) : Tree → Decoded α
  | .string (some s) => Json.variant s
  | .object members => enter depth fun _ => match members with
    | .closed => .error (.fault .malformed)
    | .broken fault => .error (.fault fault)
    -- Something other than a text where the choice should be named.
    | .noKey t => .error t.unexpected
    | .badKey fault _ => .error (.fault fault)
    | .member key t rest => do
      let a ← Json.variant (← keyText key)
      -- The choice carries nothing, and nothing may follow it.
      match t with
      | .null => rest.close
      | t => .error t.unexpected
      return a
  | .broken fault _ => .error (.fault fault)
  | _ => .error (.fault .malformed)

mutual

/-- Any value, the members of its objects sorted; of repeated members the last counts. -/
def Tree.value (depth : Nat) : Tree → Decoded Value
  | .null => .ok .null
  | .bool b => .ok (.bool b)
  | .number (some n) => .ok (.number n)
  | .string (some s) => .ok (.string s)
  | .array items => match depth with
    -- The limit on nesting is spent.
    | 0 => .error (.fault .malformed)
    | depth + 1 => (items.values depth).map .array
  | .object members => match depth with
    | 0 => .error (.fault .malformed)
    | depth + 1 => (members.values depth []).map .object
  | .number none => .error (.fault .malformed)
  | .string none => .error (.fault .malformed)
  | .broken fault _ => .error (.fault fault)

/-- The values of a list. -/
def Items.values (depth : Nat) : Items → Decoded (List Value)
  | .closed => .ok []
  | .broken fault => .error (.fault fault)
  | .item t rest => do
    let v ← t.value depth
    let vs ← rest.values depth
    return v :: vs

/-- The members of an object, inserted one by one into the table `m`. -/
def Members.values (depth : Nat) (m : Keyed Value) : Members → Decoded (Keyed Value)
  | .closed => .ok m
  | .broken fault => .error (.fault fault)
  | .noKey _ => .error (.fault .malformed)
  | .badKey fault _ => .error (.fault fault)
  | .member key t rest => do
    let k ← keyText key
    let v ← t.value depth
    -- A key that comes again replaces its value.
    rest.values depth (m.insert k v)

end

/-- Decodes a whole document: behind its value, only white space may follow. -/
def Document.decode {α : Type} (f : Nat → Tree → Decoded α) (d : Document) : Decoded α := do
  let a ← f maxDepth d.root
  if d.ended then return a else .error (.fault .malformed)

end CompositeCrd.Json
