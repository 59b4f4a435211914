import CompositeCrd.Json.Literal
import CompositeCrd.Yaml.Input
import CompositeCrd.Yaml.Token.Basic

/-!
# Reading scalars

A scalar may go on over several lines. What stands between two of its parts is a `Gap`: blanks,
or line breaks with blanks around them, which count for a single space, or for one line break
less than there are. Plain scalars end in front of a mark or where the indentation falls below
their level; quoted ones end at their quote; blocks keep their lines and end with their
indentation.

Each reader gives the text of the scalar and the rest of the input, or nothing if the scalar is
broken.
-/

namespace CompositeCrd.Yaml

open Input

/-! ### Gaps -/

/-- What stands between two parts of a scalar. -/
structure Gap where
  /-- The blanks in front of the first line break. -/
  blanks : List Char := []
  /-- The line breaks. -/
  breaks : List Char := []

namespace Gap

/-- Reads a gap, of which line breaks may have been read already (`broken`). Behind a line break,
a tab must not stand in the indentation. -/
def read (indent : Nat) : (broken : Bool) → Input → Option (Gap × Input)
  | _, [] => some ({}, [])
  | broken, x :: s =>
    if isBreak x.char then do
      let (g, rest) ← read indent true s
      return ({ g with breaks := x.char :: g.breaks }, rest)
    else if isBlank x.char then
      -- Behind a line break, blanks are indentation.
      if broken then
        if x.char = '\t' ∧ x.column < indent then none else read indent true s
      else do
        let (g, rest) ← read indent false s
        return ({ g with blanks := x.char :: g.blanks }, rest)
    else some ({}, x :: s)

/-- The text that a gap stands for. -/
def text (g : Gap) : List Char :=
  match g.breaks with
  | [] => g.blanks
  | ['\n'] => [' ']
  | '\n' :: breaks => breaks
  | breaks => breaks

end Gap

/-- Puts text in front of what is read behind it. -/
def prepend (cs : List Char) (read : Option (List Char × Input)) : Option (List Char × Input) :=
  read.map fun (more, rest) => (cs ++ more, rest)

/-! ### Quoted scalars -/

/-- The number that `width` hexadecimal digits write, and what follows them. -/
def hexNumber? : (width : Nat) → (n : Nat) → Input → Option (Nat × Input)
  | 0, n, s => some (n, s)
  | _ + 1, _, [] => none
  | width + 1, n, x :: s => do hexNumber? width (n * 16 + (← Json.hexDigit? x.char)) s

/-- The character with a code point, unless it is half of a surrogate pair or out of range. -/
def charOf? (n : Nat) : Option Char :=
  if n < 0xD800 ∨ (0xDFFF < n ∧ n ≤ 0x10FFFF) then some (Char.ofNat n) else none

/-- The character that an escape stands for, and what follows the escape. -/
def escaped? (c : Char) (s : Input) : Option (Char × Input) :=
  if c = 'x' then code 2
  else if c = 'u' then code 4
  else if c = 'U' then code 8
  else (letter?).map fun d => (d, s)
where
  /-- A code point of so many digits. -/
  code (width : Nat) : Option (Char × Input) := do
    let (n, rest) ← hexNumber? width 0 s
    return (← charOf? n, rest)
  /-- The character that a single letter stands for. -/
  letter? : Option Char :=
    if c = '0' then some '\x00'
    else if c = 'a' then some '\x07'
    else if c = 'b' then some '\x08'
    else if c = 't' ∨ c = '\t' then some '\t'
    else if c = 'n' then some '\n'
    else if c = 'v' then some '\x0b'
    else if c = 'f' then some '\x0c'
    else if c = 'r' then some '\r'
    else if c = 'e' then some '\x1b'
    else if c = ' ' ∨ c = '"' ∨ c = '/' ∨ c = '\\' then some c
    else if c = 'N' then some '\u0085'
    else if c = '_' then some '\u00a0'
    else if c = 'L' then some '\u2028'
    else if c = 'P' then some '\u2029'
    else none

/-- Reads a scalar between apostrophes, behind the first. Each step takes at least one character,
so `fuel` need not exceed their number. -/
def readSingle : (fuel : Nat) → Input → Option (List Char × Input)
  | 0, _ => none
  | _ + 1, [] => none
  | fuel + 1, x :: s =>
    if atDocumentMark (x :: s) then none
    else if isSpace x.char then do
      -- White space is read as a whole, since a line break in it changes what it means.
      let (g, rest) ← Gap.read 0 false (x :: s)
      prepend g.text (readSingle fuel rest)
    else if x.char ≠ '\'' then prepend [x.char] (readSingle fuel s)
    else match s with
      -- Two apostrophes stand for one; one alone ends the scalar.
      | y :: s' => if y.char = '\'' then prepend ['\''] (readSingle fuel s') else some ([], s)
      | [] => some ([], [])

/-- Reads a scalar between quotation marks, behind the first. An escaped line break joins two
lines without a space. -/
def readDouble : (fuel : Nat) → Input → Option (List Char × Input)
  | 0, _ => none
  | _ + 1, [] => none
  | fuel + 1, x :: s =>
    if atDocumentMark (x :: s) then none
    else if isSpace x.char then do
      let (g, rest) ← Gap.read 0 false (x :: s)
      prepend g.text (readDouble fuel rest)
    else if x.char = '"' then some ([], s)
    else if x.char ≠ '\\' then prepend [x.char] (readDouble fuel s)
    else match s with
      | [] => none
      | y :: s =>
        -- An escaped line break: the lines are joined without a space.
        if isBreak y.char then do
          let (g, rest) ← Gap.read 0 true s
          prepend g.breaks (readDouble fuel rest)
        else do
          let (c, rest) ← escaped? y.char s
          prepend [c] (readDouble fuel rest)

/-! ### Plain scalars -/

/-- The marks that end a plain scalar between brackets. -/
def isFlowMark (c : Char) : Bool :=
  c ∈ [',', '[', ']', '\x7b', '\x7d']

/-- Reads a part of a plain scalar, up to a blank, the end, or a mark that ends the scalar.
Between brackets (`inFlow`), a colon must not stand in front of such a mark. -/
def plainPart (inFlow : Bool) : Input → Option (List Char × Input)
  | [] => some ([], [])
  | x :: s =>
    if isSpace x.char then some ([], x :: s)
    else if inFlow && x.char = ':' && nextIs (fun c => isFlowMark c || c = '?') s then none
    else if (x.char = ':' && atSpace s) || (inFlow && isFlowMark x.char) then some ([], x :: s)
    else prepend [x.char] (plainPart inFlow s)

/-- A plain scalar that was read. -/
structure Plain where
  /-- The text. -/
  text : List Char
  /-- Whether line breaks were passed behind the text. -/
  brokenBehind : Bool
  /-- The rest of the input. -/
  rest : Input

/-- Reads a plain scalar from its next part on, with the gap `g` in front of it. Outside of
brackets, the parts must be indented by `indent` at least. -/
def readPlain (inFlow : Bool) (indent : Nat) : (fuel : Nat) → Gap → Input → Option Plain
  | 0, _, _ => none
  | fuel + 1, g, s =>
    if atDocumentMark s || nextIs (· == '#') s then some ⟨[], !g.breaks.isEmpty, s⟩
    else do
      let (part, rest) ← plainPart inFlow s
      -- The scalar has ended in front of the gap.
      if part.isEmpty then return ⟨[], !g.breaks.isEmpty, s⟩
      -- What follows directly is a mark that ends it.
      if !nextIs isSpace rest then return ⟨g.text ++ part, false, rest⟩
      let (g', rest) ← Gap.read indent false rest
      -- The next line is not set in enough to go on with it.
      if !inFlow && rest.head?.all (·.column < indent) then
        return ⟨g.text ++ part, !g'.breaks.isEmpty, rest⟩
      let more ← readPlain inFlow indent fuel g' rest
      return { more with text := g.text ++ part ++ more.text }

/-! ### Blocks -/

/-- What becomes of the line breaks at the end of a block. -/
inductive Chomping where
  /-- All are dropped. -/
  | strip
  /-- One stays. -/
  | clip
  /-- All stay. -/
  | keep
deriving DecidableEq, Repr

/-- The marks in the head of a block: what becomes of its end, and its indentation relative to
what is around it, zero if it shows by itself. -/
def blockHead : Input → Option (Chomping × Nat × Input)
  | [] => some (.clip, 0, [])
  | x :: s => match chomping? x.char with
    -- The mark for the end may come before the increment, or behind it.
    | some chomping => match s with
      | [] => some (chomping, 0, [])
      | y :: s' =>
        if y.char = '0' then none
        else if y.char.isDigit then some (chomping, y.char.toNat - '0'.toNat, s')
        else some (chomping, 0, s)
    | none =>
      if x.char = '0' then none
      else if x.char.isDigit then
        let increment := x.char.toNat - '0'.toNat
        match s with
        | [] => some (.clip, increment, [])
        | y :: s' => match chomping? y.char with
          | some chomping => some (chomping, increment, s')
          | none => some (.clip, increment, s)
      else some (.clip, 0, x :: s)
where
  /-- What a mark says about the end of the block. -/
  chomping? (c : Char) : Option Chomping :=
    if c = '+' then some .keep else if c = '-' then some .strip else none

/-- Reads empty lines and the spaces in front of the next line, of which there may be `indent`,
or any number if that is zero: the line breaks, the greatest column that was reached, and the
rest of the input. A tab must not stand among the spaces. -/
def emptyLines (indent : Nat) : Input → Option (List Char × Nat × Input)
  | [] => some ([], 0, [])
  | x :: s =>
    -- Only what is in front of the text counts as indentation.
    let inside := indent = 0 || x.column < indent
    if inside && x.char = ' ' then do
      let (breaks, column, rest) ← emptyLines indent s
      return (breaks, max column (x.column + 1), rest)
    else if inside && x.char = '\t' then none
    else if isBreak x.char then do
      let (breaks, column, rest) ← emptyLines indent s
      return (x.char :: breaks, column, rest)
    else some ([], 0, x :: s)

/-- The end of a line inside a block: its line break, and the empty lines behind it. -/
structure LineEnd where
  /-- The line break, if there is one. -/
  own : List Char := []
  /-- Whether the line starts with a blank. -/
  blank : Bool := false
  /-- The line breaks of the empty lines. -/
  empty : List Char := []

/-- What joins a line of a block to the next. In a block whose lines are joined, a line break
between two lines that start without a blank counts for a space, or for nothing if there are
empty lines in between. -/
def LineEnd.join (e : LineEnd) (folded nextBlank : Bool) : List Char :=
  if folded && e.own = ['\n'] && !e.blank && !nextBlank then
    if e.empty.isEmpty then [' '] else e.empty
  else e.own ++ e.empty

/-- Reads the lines of a block, behind a line that ends like `e`: their text, the end of the
last line, and the rest of the input. -/
def blockLines (folded : Bool) (indent : Nat) :
    (fuel : Nat) → LineEnd → Input → Option (List Char × LineEnd × Input)
  | 0, _, _ => none
  | _ + 1, e, [] => some ([], e, [])
  | fuel + 1, e, x :: s =>
    -- The line is set in less, so it is not part of the block.
    if x.column ≠ indent then some ([], e, x :: s)
    else do
      let blank := isBlank x.char
      let (line, rest) := restOfLine (x :: s)
      let own := chars (rest.take 1)
      let (empty, _, rest) ← emptyLines indent (rest.drop 1)
      let (more, last, rest) ← blockLines folded indent fuel { own, blank, empty } rest
      return (e.join folded blank ++ line ++ more, last, rest)

/-- Reads a block behind its first character. Its lines are indented by more than `outer`, the
number of spaces up to and including the start of the collection around it. -/
def readBlock (folded : Bool) (outer : Nat) (s : Input) : Option (List Char × Input) := do
  let (chomping, increment, s) ← blockHead s
  let s ← nextLine? s
  let given := if increment = 0 then 0 else (outer - 1) + increment
  let (empty, column, s) ← emptyLines given s
  -- Without an increment the first line that is not empty decides.
  let indent := if given = 0 then max (max column outer) 1 else given
  let (text, last, rest) ← blockLines folded indent (s.length + 1) { empty } s
  let tail := match chomping with
    | .strip => []
    | .clip => last.own
    | .keep => last.own ++ last.empty
  return (text ++ tail, rest)

end CompositeCrd.Yaml
