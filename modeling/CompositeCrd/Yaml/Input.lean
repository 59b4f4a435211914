import CompositeCrd.Yaml.Charset

/-!
# Characters and where they stand

YAML reads its structure off the columns at which things stand, so a document is first turned
into characters that know their place. On the way, line breaks are reduced to the line feed; the
two separators of Unicode, which also break lines, stay what they are.
-/

namespace CompositeCrd.Yaml

/-- A character of a document. -/
structure Located where
  /-- The character. -/
  char : Char
  /-- The number of characters in front of it. -/
  index : Nat
  /-- The number of lines in front of it. -/
  line : Nat
  /-- The number of characters in front of it in its line. -/
  column : Nat
deriving DecidableEq, Repr

/-- What is left of a document. -/
abbrev Input := List Located

namespace Input

/-- The characters of a document from some place on. -/
def locate (index line column : Nat) : List Char → Input
  | [] => []
  | '\r' :: '\n' :: cs => ⟨'\n', index, line, column⟩ :: locate (index + 2) (line + 1) 0 cs
  | c :: cs =>
    -- These two end a line and stand for themselves; the other breaks count as a line feed.
    if c = '\u2028' ∨ c = '\u2029' then
      ⟨c, index, line, column⟩ :: locate (index + 1) (line + 1) 0 cs
    else if isBreak c then
      ⟨'\n', index, line, column⟩ :: locate (index + 1) (line + 1) 0 cs
    else ⟨c, index, line, column⟩ :: locate (index + 1) line (column + 1) cs

/-- A document, if it has only characters that it can have. -/
def ofChars? (cs : List Char) : Option Input :=
  if cs.all isAllowed then some (locate 0 0 0 cs) else none

/-- The characters, without their places. -/
def chars (s : Input) : List Char :=
  s.map (·.char)

/-- Whether the next character is of a class. -/
def nextIs (p : Char → Bool) : Input → Bool
  | [] => false
  | x :: _ => p x.char

/-- Whether a blank, a line break or the end is next. -/
def atSpace : Input → Bool
  | [] => true
  | x :: _ => isSpace x.char

/-- The input behind blanks. -/
def skipBlanks (s : Input) : Input :=
  s.dropWhile fun x => isBlank x.char

/-- The rest of a line, without its line break, and what follows. -/
def restOfLine (s : Input) : List Char × Input :=
  (chars (s.takeWhile fun x => !isBreak x.char), s.dropWhile fun x => !isBreak x.char)

/-- The next line, if only blanks and a comment are left of this one. -/
def nextLine? (s : Input) : Option Input :=
  let s := skipBlanks s
  let s := if nextIs (· == '#') s then (restOfLine s).2 else s
  match s with
  | [] => some []
  | x :: s => if isBreak x.char then some s else none

/-- Whether a line starts with three hyphens or three dots that stand for themselves, which is
the mark of a document's start or end. -/
def atDocumentMark : Input → Bool
  | x :: y :: z :: s =>
    x.column = 0 && (x.char = '-' || x.char = '.') && y.char = x.char && z.char = x.char
      && atSpace s
  | _ => false

end Input

end CompositeCrd.Yaml
