import CompositeCrd.Json.Decode

/-!
# Encoding and decoding records

A `Codec` pairs the two directions for one type: `encode` gives a value, or none if something
inside cannot be written, and `decode` reads a tree. Records are made from their fields
(`Codec.record`). A record is read from an object, whose keys may come in any order and may
include unknown ones, or from a list of its fields in the order of declaration; it is written
as an object in that order.

Errors show in document order. A repeated field is reported before its value is looked at, and
a missing one when the object has been read to its end.
-/

namespace CompositeCrd.Json

/-- The two directions between a type and JSON values. -/
structure Codec (α : Type) where
  /-- The value that stands for `a`, if there is one. -/
  encode : α → Option Value
  /-- Decodes a tree, with the number of lists and objects that may still be entered. -/
  decode : Nat → Tree → Decoded α

/-- Fills the slots of a record from the members of an object, up to its end. Unknown members
are skipped. -/
def Members.fill {σ α : Type} (fields : Fields Codec σ α) (depth : Nat) :
    Members → σ → Decoded σ
  | .closed, slots => .ok slots
  | .broken fault, _ => .error (.fault fault)
  | .noKey _, _ => .error (.fault .malformed)
  | .badKey fault _, _ => .error (.fault fault)
  | .member key t rest, slots => do
    let k ← keyText key
    match fields.put (fun c => c.decode depth t)
        (fun name => .error (.mismatch (.duplicateField name))) k slots with
    | some filled => rest.fill fields depth (← filled)
    -- A member without a field is passed over, and its value has to be well formed.
    | none => match t.skip with
      | .ok () => rest.fill fields depth slots
      | .error fault => .error (.fault fault)

/-- Reads a record from the items of a list, the first of which is at `position`. Trailing
fields may be missing if they have a value for that; nothing may follow the last field. -/
def Items.fields (depth : Nat) :
    {σ α : Type} → Fields Codec σ α → (position : Nat) → Items → Decoded α
  | _, _, .done, _, .closed => .ok ()
  | _, _, .done, _, .broken fault => .error (.fault fault)
  | _, _, .done, _, .item _ _ => .error (.fault .malformed)
  | _, _, .field _ _ _ _ _, _, .broken fault => .error (.fault fault)
  | _, _, .field _ codec _ _ fields, position, .item t rest => do
    let a ← codec.decode depth t
    let b ← Items.fields depth fields (position + 1) rest
    return (a, b)
  -- The list has ended: what is left must be able to do without an item.
  | _, _, .field _ _ absent _ fields, position, .closed => match absent with
    | none => .error (.mismatch (.invalidLength position))
    | some a => do return (a, ← Items.fields depth fields (position + 1) .closed)

/-- The members that a record is written as. -/
def encodeFields : {σ α : Type} → Fields Codec σ α → α → Option (Keyed Value)
  | _, _, .done, _ => some []
  | _, _, .field name codec _ omits rest, (a, b) => do
    let members ← encodeFields rest b
    if omits a then return members
    else return (name, ← codec.encode a) :: members

namespace Codec

variable {α β σ : Type}

/-- Reads a whole document. -/
def read (c : Codec α) (d : Document) : Decoded α :=
  d.decode c.decode

/-- Texts. -/
def text : Codec String where
  encode s := some (.string s)
  decode _ t := t.text

/-- Truth values. -/
def flag : Codec Bool where
  encode b := some (.bool b)
  decode _ t := t.flag

/-- Integers of 32 bits. -/
def int32 : Codec Int32 where
  encode n := some (.number (.int n.toInt))
  decode _ t := t.int32

/-- Enumerations. -/
def spelled [Spelled α] : Codec α where
  encode a := some (.string (Spelled.spell a))
  decode depth t := t.variant depth

/-- Values that may be `null`. -/
def nullable (c : Codec α) : Codec (Option α) where
  encode
    | none => some .null
    | some a => c.encode a
  decode depth t := t.optional (c.decode depth)

/-- Lists. -/
def list (c : Codec α) : Codec (List α) where
  encode as := (as.mapM c.encode).map .array
  decode depth t := t.list depth c.decode

/-- Tables; of repeated keys the last counts. -/
def map (c : Codec α) : Codec (SortedMap α) where
  encode m := (m.entries.mapM fun e => (c.encode e.2).map fun v => (e.1, v)).map .object
  decode depth t := do
    let entries ← t.members depth c.decode
    return entries.foldl (fun m e => m.insert e.1 e.2) SortedMap.empty

/-- Records, made from their fields by `make` and taken apart by `split`. -/
def record (fields : Fields Codec σ β) (make : β → α) (split : α → β) : Codec α where
  encode a := (encodeFields fields (split a)).map .object
  decode depth
    | .object members => enter depth fun depth => do
      match fields.finish (← members.fill fields depth fields.empty) with
      | .ok b => return make b
      | .error name => .error (.mismatch (.missingField name))
    -- A list stands for the record with its fields in order.
    | .array items => enter depth fun depth => do
      return make (← items.fields depth fields 0)
    | t => .error t.unexpected

end Codec

end CompositeCrd.Json
