import CompositeCrd.Json.Value

/-!
# Writing values

Two layouts of a value: compact, without any white space, and pretty, with one item or member
a line and two spaces for each level. Texts are quoted with the short escapes of JSON where
there are some and `\u00xx` for the other control characters; everything else stands for
itself.

The writers put a value in front of a text that is there already, so that what stands behind a
value is part of the statement when a value is read back.
-/

namespace CompositeCrd.Json

/-- A hexadecimal digit. -/
def hexChar (n : Nat) : Char :=
  Char.ofNat (if n < 10 then '0'.toNat + n else 'a'.toNat + (n - 10))

/-- One character between quotes. -/
def escapeChar (c : Char) : List Char :=
  if c = '"' then ['\\', '"']
  else if c = '\\' then ['\\', '\\']
  else if c = '\x08' then ['\\', 'b']
  else if c = '\t' then ['\\', 't']
  else if c = '\n' then ['\\', 'n']
  else if c = '\x0c' then ['\\', 'f']
  else if c = '\r' then ['\\', 'r']
  -- Other control characters are written by their number.
  else if c.toNat < 0x20 then
    ['\\', 'u', '0', '0', hexChar (c.toNat / 16), hexChar (c.toNat % 16)]
  else [c]

/-- A text between quotes. -/
def writeText (s : String) (rest : List Char) : List Char :=
  '"' :: (s.toList.flatMap escapeChar ++ '"' :: rest)

/-- A value that is no list and no object. -/
def writeScalar : Value → List Char
  | .null => ['n', 'u', 'l', 'l']
  | .bool true => ['t', 'r', 'u', 'e']
  | .bool false => ['f', 'a', 'l', 's', 'e']
  | .number n => n.chars
  | .string s => writeText s []
  | .array _ => []
  | .object _ => []

mutual

/-- A value in compact layout, in front of `rest`. -/
def Value.write : Value → List Char → List Char
  | .array items, rest => '[' :: writeItems items true (']' :: rest)
  | .object members, rest => '\x7b' :: writeMembers members true ('\x7d' :: rest)
  | v, rest => writeScalar v ++ rest

/-- The items of a list; all but the first of the list are set off by a comma. -/
def writeItems : List Value → (first : Bool) → List Char → List Char
  | [], _, rest => rest
  | v :: items, first, rest =>
    let item := v.write (writeItems items false rest)
    if first then item else ',' :: item

/-- The members of an object; all but the first are set off by a comma. -/
def writeMembers : List (String × Value) → (first : Bool) → List Char → List Char
  | [], _, rest => rest
  | (k, v) :: members, first, rest =>
    let member := writeText k (':' :: v.write (writeMembers members false rest))
    if first then member else ',' :: member

end

/-- A line break, and the spaces that indent a line at this level. -/
def newLine (level : Nat) (rest : List Char) : List Char :=
  '\n' :: (List.replicate (2 * level) ' ' ++ rest)

mutual

/-- A value in pretty layout at an indentation level, in front of `rest`. -/
def Value.writePretty (level : Nat) : Value → List Char → List Char
  | .array [], rest => '[' :: ']' :: rest
  | .array (v :: items), rest =>
    '[' :: prettyItems (level + 1) (v :: items) true (newLine level (']' :: rest))
  | .object [], rest => '\x7b' :: '\x7d' :: rest
  | .object (m :: members), rest =>
    '\x7b' :: prettyMembers (level + 1) (m :: members) true (newLine level ('\x7d' :: rest))
  -- What has nothing inside is written as in the compact layout.
  | v, rest => writeScalar v ++ rest

/-- The items of a list, a line each. -/
def prettyItems (level : Nat) : List Value → (first : Bool) → List Char → List Char
  | [], _, rest => rest
  | v :: items, first, rest =>
    let item := newLine level (v.writePretty level (prettyItems level items false rest))
    if first then item else ',' :: item

/-- The members of an object, a line each. -/
def prettyMembers (level : Nat) : List (String × Value) → (first : Bool) → List Char → List Char
  | [], _, rest => rest
  | (k, v) :: members, first, rest =>
    let member := newLine level <| writeText k <|
      ':' :: ' ' :: v.writePretty level (prettyMembers level members false rest)
    if first then member else ',' :: member

end

/-- The compact text of a value. -/
def Value.compact (v : Value) : String :=
  String.ofList (v.write [])

/-- The pretty text of a value. -/
def Value.pretty (v : Value) : String :=
  String.ofList (v.writePretty 0 [])

end CompositeCrd.Json
