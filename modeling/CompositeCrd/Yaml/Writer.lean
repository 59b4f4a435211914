import CompositeCrd.Json.Value
import CompositeCrd.Yaml.Style

/-!
# Writing YAML

A value is written in block layout: one key or item a line, two more spaces for each level of
keys, items not set in below the key that they belong to. Empty collections are written as a
pair of brackets, and texts in the form that `Style.choose` gives them.

A key that does not fit in front of a colon is written behind a question mark, and its value
behind a colon on the next line.
-/

namespace CompositeCrd.Yaml

open Json (Value Number)

/-- A line's indentation. -/
def spaces (n : Nat) : List Char :=
  List.replicate n ' '

/-- An uppercase hexadecimal digit. -/
def hexChar (n : Nat) : Char :=
  Char.ofNat (if n < 10 then '0'.toNat + n else 'A'.toNat + (n - 10))

/-- The hexadecimal digits of a number, of which there are `width`. -/
def hexDigits : (width : Nat) → Nat → List Char
  | 0, _ => []
  | width + 1, n => hexDigits width (n / 16) ++ [hexChar (n % 16)]

/-- What stands behind the backslash that escapes a character. -/
def escape (c : Char) : List Char :=
  if c = '\x00' then ['0']
  else if c = '\x07' then ['a']
  else if c = '\x08' then ['b']
  else if c = '\t' then ['t']
  else if c = '\n' then ['n']
  else if c = '\x0b' then ['v']
  else if c = '\x0c' then ['f']
  else if c = '\r' then ['r']
  else if c = '\x1b' then ['e']
  else if c = '"' then ['"']
  else if c = '\\' then ['\\']
  else if c = '\u0085' then ['N']
  else if c = '\u2028' then ['L']
  else if c = '\u2029' then ['P']
  -- What has no letter is written by its number, with as few digits as there are forms for.
  else if c.toNat ≤ 0xFF then 'x' :: hexDigits 2 c.toNat
  else if c.toNat ≤ 0xFFFF then 'u' :: hexDigits 4 c.toNat
  else 'U' :: hexDigits 8 c.toNat

/-- One character between quotation marks. -/
def doubleChar (c : Char) : List Char :=
  if !isPrintable c || isBreak c || c = '"' || c = '\\' then '\\' :: escape c else [c]

/-- A text between quotation marks. -/
def double (cs : List Char) : List Char :=
  '"' :: cs.flatMap doubleChar ++ ['"']

/-- The rest of a text between apostrophes, which are written twice. Behind line breaks, the
line is indented before it goes on. -/
def singleFrom (indent : Nat) : (behindBreak : Bool) → List Char → List Char
  | behindBreak, [] => if behindBreak then spaces indent else []
  | behindBreak, c :: cs =>
    if isBreak c then c :: singleFrom indent true cs
    else (if behindBreak then spaces indent else [])
      ++ (if c = '\'' then ['\'', '\''] else [c]) ++ singleFrom indent false cs

/-- A text between apostrophes. -/
def single (indent : Nat) (cs : List Char) : List Char :=
  '\'' :: singleFrom indent false cs ++ ['\'']

/-- The marks in the head of a block: the indentation, if the text does not show it, and what
becomes of the line breaks at its end. -/
def literalHints (cs : List Char) : List Char :=
  (if Style.startsWith (fun c => c == ' ' || isBreak c) cs then ['2'] else [])
    ++ match cs.reverse with
      | [] => ['-']
      | [c] => if isBreak c then ['+'] else ['-']
      | c :: d :: _ => if !isBreak c then ['-'] else if isBreak d then ['+'] else []

/-- The lines of a block. -/
def literalLines (indent : Nat) : (lineStart : Bool) → List Char → List Char
  | _, [] => []
  | lineStart, c :: cs =>
    if isBreak c then c :: literalLines indent true cs
    else (if lineStart then spaces indent else []) ++ c :: literalLines indent false cs

/-- A text as a block, up to the end of its last line. -/
def literal (indent : Nat) (cs : List Char) : List Char :=
  '|' :: literalHints cs ++ '\n' :: literalLines indent true cs
    ++ (if Style.endsWith isBreak cs then [] else ['\n'])

/-- A text in front of a colon, where it never is a block: it has one line. -/
def key (indent : Nat) (cs : List Char) : List Char :=
  match Style.choose cs with
  | .plain => cs
  | .single => single indent cs
  | .double => double cs
  | .literal => double cs

/-- A text and the end of its line. -/
def text (indent : Nat) (cs : List Char) : List Char :=
  match Style.choose cs with
  | .plain => cs ++ ['\n']
  | .single => single indent cs ++ ['\n']
  | .double => double cs ++ ['\n']
  | .literal => literal indent cs

/-- A number; positive exponents have no sign. -/
def number : Number → List Char
  | .float x => x.chars []
  | n => n.chars

/-- A value that is no collection, and the end of its line. -/
def scalar (indent : Nat) : Value → List Char
  | .null => ['n', 'u', 'l', 'l', '\n']
  | .bool true => ['t', 'r', 'u', 'e', '\n']
  | .bool false => ['f', 'a', 'l', 's', 'e', '\n']
  | .number n => number n ++ ['\n']
  | .string s => text indent s.toList
  | .array _ => ['[', ']', '\n']
  | .object _ => ['\x7b', '\x7d', '\n']

mutual

/-- A value behind the colon of a key that is indented by `indent`, or behind a mark in its place
(`marked`): an item's hyphen, a question mark, or a colon at the start of a line. A collection
goes on behind a mark, but starts a line behind a key. -/
def child (indent : Nat) (marked : Bool) : Value → List Char
  | .array (v :: vs) =>
    -- Behind a hyphen the first item stands on the line of the hyphen.
    if marked then ' ' :: items (indent + 2) false (v :: vs)
    else '\n' :: items indent true (v :: vs)
  | .object (m :: ms) =>
    (if marked then ' ' else '\n') :: members (indent + 2) (!marked) (m :: ms)
  | v => ' ' :: scalar (indent + 2) v

/-- The items of a list, each behind a hyphen. The first may stand on a line that is indented
already. -/
def items (indent : Nat) (indentFirst : Bool) : List Value → List Char
  | [] => []
  | v :: vs =>
    (if indentFirst then spaces indent else []) ++ '-' :: child indent true v
      ++ items indent true vs

/-- The members of an object, each with its key. The first may stand on a line that is indented
already. -/
def members (indent : Nat) (indentFirst : Bool) : List (String × Value) → List Char
  | [] => []
  | (k, v) :: ms =>
    (if indentFirst then spaces indent else [])
      ++ (if Style.fitsKey k.toList then key (indent + 2) k.toList ++ ':' :: child indent false v
        else
          '?' :: ' ' :: text (indent + 2) k.toList ++ spaces indent ++ ':' :: child indent true v)
      ++ members indent true ms

end

/-- The document of a value. -/
def document : Value → List Char
  | .array (v :: vs) => items 0 true (v :: vs)
  | .object (m :: ms) => members 0 true (m :: ms)
  | v => scalar 2 v

end CompositeCrd.Yaml
