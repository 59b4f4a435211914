import CompositeCrd.Json.Literal
import CompositeCrd.Text.Utf8
import CompositeCrd.Yaml.Input
import CompositeCrd.Yaml.Token.Basic

/-!
# Reading anchors, tags and directives

The tokens that are made of names. A tag is written out between angle brackets, or starts with
a handle; percent signs in it escape bytes, which must be bundled as UTF-8 bundles them.
Directives stand on lines of their own in front of a document.
-/

namespace CompositeCrd.Yaml

open Input

/-- Whether a character can stand in a name. -/
def isNameChar (c : Char) : Bool :=
  c.isAlphanum || c = '_' || c = '-'

/-- The name that is next, and what follows it. -/
def takeName (s : Input) : List Char × Input :=
  (chars (s.takeWhile fun x => isNameChar x.char), s.dropWhile fun x => isNameChar x.char)

/-- Reads the name of an anchor or alias, behind its mark. -/
def readAnchor (s : Input) : Option (List Char × Input) :=
  let (name, rest) := takeName s
  if name.isEmpty then none
  else if atSpace rest || nextIs (· ∈ ['?', ':', ',', ']', '\x7d', '%', '@', '\x60']) rest then
    some (name, rest)
  else none

/-! ### Tags -/

/-- Reads a handle: an exclamation mark, and maybe a name and another exclamation mark. In a
directive, a name needs the second mark. -/
def readHandle (inDirective : Bool) (s : Input) : Option (List Char × Input) :=
  match s with
  | [] => none
  | x :: s =>
    if x.char ≠ '!' then none
    else
      let (name, rest) := takeName s
      if nextIs (· == '!') rest then some ('!' :: name ++ ['!'], rest.drop 1)
      -- Without a second mark the name is part of a tag.
      else if inDirective && !name.isEmpty then none
      else some ('!' :: name, rest)

/-- Whether a character can stand in a tag, or in one that is written out. -/
def isTagChar (full : Bool) (c : Char) : Bool :=
  isNameChar c
    || c ∈ [';', '/', '?', ':', '@', '&', '=', '+', '$', '.', '!', '~', '*', '\'', '(', ')']
    || (full && c ∈ [',', '[', ']'])

/-- How many bytes a first byte of UTF-8 announces. -/
def announced? (b : Nat) : Option Nat :=
  if b < 0x80 then some 1
  else if 0xC0 ≤ b ∧ b < 0xE0 then some 2
  else if 0xE0 ≤ b ∧ b < 0xF0 then some 3
  else if 0xF0 ≤ b ∧ b < 0xF8 then some 4
  else none

/-- Reads the characters of a tag as bytes. While bytes are `owed`, escapes must follow that
go on with a character. -/
def readTagBytes (full : Bool) : (owed : Nat) → Input → Option (Tag × Input)
  | owed, [] => if owed = 0 then some ([], []) else none
  | owed, x :: s =>
    if x.char = '%' then match s with
      | h :: l :: s => do
        let byte := (← Json.hexDigit? h.char) * 16 + (← Json.hexDigit? l.char)
        -- The first byte of a character tells how many more it has.
        let still ← if owed = 0 then announced? byte
          else if 0x80 ≤ byte ∧ byte < 0xC0 then some owed else none
        let (bytes, rest) ← readTagBytes full (still - 1) s
        return (UInt8.ofNat byte :: bytes, rest)
      | _ => none
    -- In the middle of a character nothing but an escape can follow.
    else if owed ≠ 0 then none
    else if isTagChar full x.char then do
      let (bytes, rest) ← readTagBytes full 0 s
      return (Utf8.encodeChar x.char ++ bytes, rest)
    else some ([], x :: s)

/-- Reads the characters of a tag, of which there must be some. A zero byte ends the tag. -/
def readSuffix (full : Bool) (s : Input) : Option (Tag × Input) :=
  match readTagBytes full 0 s with
  | some ([], _) => none
  | some (bytes, rest) => some (bytes.takeWhile (· ≠ 0), rest)
  | none => none

/-- Reads a tag from its exclamation mark on. -/
def readTagName (s : Input) : Option (TagName × Input) :=
  if nextIs (· == '<') (s.drop 1) then do
    let (suffix, rest) ← readSuffix true (s.drop 2)
    if nextIs (· == '>') rest then return ({ handle := [], suffix }, rest.drop 1) else none
  else do
    let (handle, rest) ← readHandle false s
    if handle.length > 1 && handle.getLast? = some '!' then
      let (suffix, rest) ← readSuffix false rest
      return ({ handle, suffix }, rest)
    else
      -- what looked like a handle is the start of the tag itself
      let (bytes, rest) ← readTagBytes false 0 rest
      let suffix := (handle.drop 1).flatMap Utf8.encodeChar ++ bytes.takeWhile (· ≠ 0)
      if suffix.isEmpty then return ({ handle := [], suffix := Utf8.encodeChar '!' }, rest)
      else return ({ handle := ['!'], suffix }, rest)

/-- Reads a tag and makes sure that it ends there. -/
def readTag (inFlow : Bool) (s : Input) : Option (TagName × Input) := do
  let (name, rest) ← readTagName s
  if atSpace rest || (inFlow && nextIs (· == ',') rest) then return (name, rest) else none

/-! ### Directives -/

/-- Reads a part of a version, of at most nine digits. -/
def readVersionPart (s : Input) : Option (Nat × Input) :=
  let digits := s.takeWhile fun x => x.char.isDigit
  if digits.isEmpty || digits.length > 9 then none
  else some ((chars digits).foldl (fun n c => n * 10 + (c.toNat - '0'.toNat)) 0,
    s.drop digits.length)

/-- Reads a directive behind its percent sign, with the end of its line. -/
def readDirective (s : Input) : Option (Token × Input) := do
  let (name, s) := takeName s
  if !atSpace s then none
  else if name = ['Y', 'A', 'M', 'L'] then
    let (major, s) ← readVersionPart (skipBlanks s)
    if !nextIs (· == '.') s then none
    else
      let (minor, s) ← readVersionPart (s.drop 1)
      return (.version major minor, ← nextLine? s)
  -- The handle, and what it stands for.
  else if name = ['T', 'A', 'G'] then
    let (handle, s) ← readHandle true (skipBlanks s)
    if !nextIs isBlank s then none
    else
      let (start, s) ← readSuffix true (skipBlanks s)
      if !atSpace s then none else return (.handle handle start, ← nextLine? s)
  else none

end CompositeCrd.Yaml
