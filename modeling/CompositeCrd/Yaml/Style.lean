import CompositeCrd.Text.Utf8
import CompositeCrd.Yaml.Charset
import CompositeCrd.Yaml.Core

/-!
# How a text is written

There are four ways to write a text in a YAML document: plain, between apostrophes, between
quotation marks with escapes, and as a literal block. `Style.choose` takes the block for texts
of several lines, apostrophes for texts that would be read as something else, and otherwise the
plain form. Where the form it wants does not admit the text, it falls back on apostrophes and,
last, on quotation marks, which admit every text.

Whether a form admits a text depends on the blanks and line breaks in it, and for the plain
form on the marks that mean something to a reader.
-/

namespace CompositeCrd.Yaml

/-- The ways to write a text. -/
inductive Style where
  /-- As it is. -/
  | plain
  /-- Between apostrophes. -/
  | single
  /-- Between quotation marks, with escapes. -/
  | double
  /-- As a block of lines. -/
  | literal
deriving DecidableEq, Repr

namespace Style

/-- Whether some character is followed by one, the two of the given classes. -/
def hasPair (first second : Char → Bool) : List Char → Bool
  | c :: d :: cs => (first c && second d) || hasPair first second (d :: cs)
  | _ => false

/-- Whether the text starts with a character of a class. -/
def startsWith (p : Char → Bool) (cs : List Char) : Bool :=
  cs.head?.any p

/-- Whether the text ends with a character of a class. -/
def endsWith (p : Char → Bool) (cs : List Char) : Bool :=
  cs.getLast?.any p

/-- Whether a text takes several lines. -/
def isMultiline (cs : List Char) : Bool :=
  cs.any isBreak

/-- Whether a text has a character that only an escape can write, or a space in front of a line
break, which a reader would drop. -/
def needsEscapes (cs : List Char) : Bool :=
  cs.any (fun c => !isPrintable c) || hasPair (· == ' ') isBreak cs

/-- Whether a text starts like a mark of the notation. -/
def startsLikeMark : List Char → Bool
  | '-' :: '-' :: '-' :: _ => true
  | '.' :: '.' :: '.' :: _ => true
  | [] => false
  | c :: cs =>
    -- The first marks stand for themselves anywhere, the other three only in front of white space.
    c ∈ ['#', ',', '[', ']', '\x7b', '\x7d', '&', '*', '!', '|', '>', '\'', '"', '%', '@', '\x60']
      || (c ∈ ['?', ':', '-'] && (cs.isEmpty || startsWith isSpace cs))

/-- Whether a text has a mark of the notation inside: a colon at its end or in front of a space,
or a number sign behind a space. -/
def containsMark (cs : List Char) : Bool :=
  (cs.length > 1 && endsWith (· == ':') cs)
    || hasPair (· == ':') isSpace cs || hasPair isSpace (· == '#') cs

/-- Whether the plain form admits a text. -/
def admitsPlain (cs : List Char) : Bool :=
  !needsEscapes cs && !isMultiline cs && !startsWith (· == ' ') cs && !endsWith (· == ' ') cs
    && !startsLikeMark cs && !containsMark cs

/-- Whether the form between apostrophes admits a text. -/
def admitsSingle (cs : List Char) : Bool :=
  !needsEscapes cs && !hasPair isBreak (· == ' ') cs

/-- Whether the form as a block admits a text. -/
def admitsLiteral (cs : List Char) : Bool :=
  !cs.isEmpty && !needsEscapes cs && !endsWith (· == ' ') cs

/-- The form for a text that stands for itself: plain, or the next that admits it. -/
def quoted (cs : List Char) : Style :=
  if admitsSingle cs then .single else .double

/-- The form in which a text is written. -/
def choose (cs : List Char) : Style :=
  if '\n' ∈ cs then
    if admitsLiteral cs then .literal else .double
  -- What would be read as something else than a text is quoted.
  else if resolve cs ≠ .text || isPadded cs then quoted cs
  else if admitsPlain cs then .plain
  else quoted cs

/-- Whether a text can stand in front of the colon of a key: on one line, and of at most 128
bytes. -/
def fitsKey (cs : List Char) : Bool :=
  !isMultiline cs && (Utf8.encode (String.ofList cs)).length ≤ 128

end Style

end CompositeCrd.Yaml
