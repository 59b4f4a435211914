import CompositeCrd.Yaml.Token.Name
import CompositeCrd.Yaml.Token.Scalar

/-!
# From characters to tokens

Reading keeps track of the columns of the collections that are open by indentation, of the
brackets that are open, and of the place where a key may have begun. That something is a key
shows only when its colon comes: then the token in front of the key is put in belatedly, and if
the key is the first of its mapping, the start of the mapping as well. A key must end on its
line and within 1024 characters.

`Token.stream?` gives all tokens of a text, or nothing if there is a fault anywhere in it.
-/

namespace CompositeCrd.Yaml

open Input

/-- A place where a key may have begun. -/
structure PossibleKey where
  /-- Whether only a key can stand there. -/
  required : Bool
  /-- The number of tokens in front of it. -/
  position : Nat
  /-- Its first character. -/
  first : Located

/-- The state of reading tokens. -/
structure TokenReader where
  /-- The rest of the input. -/
  input : Input
  /-- The tokens so far, the last first. -/
  tokens : List Token := []
  /-- The columns of the collections that are open by indentation, the innermost first. -/
  columns : List Nat := []
  /-- The place where a key may have begun, inside the innermost brackets. -/
  candidate : Option PossibleKey := none
  /-- The places where keys may have begun, around each of the brackets that are open. -/
  outer : List (Option PossibleKey) := []
  /-- Whether a key may begin here. -/
  keyAllowed : Bool := true

namespace TokenReader

/-- Whether brackets are open. -/
def inFlow (r : TokenReader) : Bool :=
  !r.outer.isEmpty

/-- The least column of what is inside the innermost collection. -/
def inside (r : TokenReader) : Nat :=
  match r.columns with
  | [] => 0
  | column :: _ => column + 1

/-- Adds a token. -/
def push (r : TokenReader) (t : Token) : TokenReader :=
  { r with tokens := t :: r.tokens }

/-- Puts a token in front of all but the first `position` ones. -/
def insert (r : TokenReader) (position : Nat) (t : Token) : TokenReader :=
  { r with tokens := r.tokens.insertIdx (r.tokens.length - position) t }

/-- Opens a collection at a column, unless that is where the innermost one is; its start becomes
the token behind the first `position` ones. Between brackets, indentation does not count. -/
def indent (r : TokenReader) (column position : Nat) (start : Token) : TokenReader :=
  if r.inFlow || column < r.inside then r
  else { r.insert position start with columns := column :: r.columns }

/-- Closes the collections whose column satisfies `p`, the innermost ones. -/
def close (p : Nat → Bool) (r : TokenReader) : TokenReader :=
  if r.inFlow then r
  else
    { r with
      tokens := (r.columns.takeWhile p).map (fun _ => Token.blockEnd) ++ r.tokens
      columns := r.columns.dropWhile p }

/-- Gives up the place where a key may have begun, if it may be given up. -/
def dropCandidate (r : TokenReader) : Option TokenReader :=
  match r.candidate with
  | some k => if k.required then none else some { r with candidate := none }
  | none => some r

/-- Notes that a key may begin at `x`. -/
def noteCandidate (r : TokenReader) (x : Located) : Option TokenReader :=
  if r.keyAllowed then do
    let required := !r.inFlow && r.columns.head? = some x.column
    let r ← r.dropCandidate
    return { r with candidate := some { required, position := r.tokens.length, first := x } }
  else some r

/-- Gives up a place from which a key would have to reach too far to get to `x`. -/
def expire (x : Located) : Option PossibleKey → Option (Option PossibleKey)
  | none => some none
  | some k =>
    if k.first.line < x.line ∨ k.first.index + 1024 < x.index then
      if k.required then none else some none
    else some (some k)

/-- Gives up all such places. -/
def expireAll (r : TokenReader) (x : Located) : Option TokenReader := do
  let candidate ← expire x r.candidate
  let outer ← r.outer.mapM (expire x)
  return { r with candidate, outer }

/-- The input behind spaces, comments and line breaks, and whether a key may begin there. Tabs
are skipped where no key may begin. A byte order mark is skipped at the very start. -/
def skipSpace (inFlow : Bool) : (inComment keyAllowed : Bool) → Input → Bool × Input
  | _, keyAllowed, [] => (keyAllowed, [])
  | inComment, keyAllowed, x :: s =>
    -- In a block, a key may begin on a new line.
    if isBreak x.char then skipSpace inFlow false (keyAllowed || !inFlow) s
    else if inComment || x.char = '#' then skipSpace inFlow true keyAllowed s
    else if x.char = ' ' || (x.char = '\t' && (inFlow || !keyAllowed))
        || (x.char = '\uFEFF' && x.index = 0) then
      skipSpace inFlow false keyAllowed s
    else (keyAllowed, x :: s)

/-- Goes on behind a directive, or behind the mark of a document's start or end. -/
def betweenDocuments (r : TokenReader) (t : Token) (rest : Input) : Option TokenReader := do
  let r ← (r.close fun _ => true).dropCandidate
  return { r.push t with keyAllowed := false, input := rest }

/-- Goes on behind an opening bracket or brace. -/
def openFlow (r : TokenReader) (x : Located) (t : Token) (rest : Input) : Option TokenReader := do
  let r ← r.noteCandidate x
  return { r.push t with
    candidate := none, outer := r.candidate :: r.outer, keyAllowed := true, input := rest }

/-- Goes on behind a closing bracket or brace. -/
def closeFlow (r : TokenReader) (t : Token) (rest : Input) : Option TokenReader := do
  let r ← r.dropCandidate
  let (candidate, outer) := match r.outer with
    | [] => (none, [])
    | candidate :: outer => (candidate, outer)
  return { r.push t with candidate, outer, keyAllowed := false, input := rest }

/-- Goes on behind a comma. -/
def comma (r : TokenReader) (rest : Input) : Option TokenReader := do
  let r ← r.dropCandidate
  return { r.push .comma with keyAllowed := true, input := rest }

/-- Opens a collection at a mark, where it may begin. -/
def openBlock (r : TokenReader) (x : Located) (start : Token) : Option TokenReader :=
  if r.inFlow then some r
  else if r.keyAllowed then some (r.indent x.column r.tokens.length start)
  else none

/-- Goes on behind the hyphen in front of an item. -/
def hyphen (r : TokenReader) (x : Located) (rest : Input) : Option TokenReader := do
  let r ← (← r.openBlock x .listStart).dropCandidate
  return { r.push .hyphen with keyAllowed := true, input := rest }

/-- Goes on behind the question mark in front of a key. -/
def questionMark (r : TokenReader) (x : Located) (rest : Input) : Option TokenReader := do
  let r ← (← r.openBlock x .mappingStart).dropCandidate
  return { r.push .key with keyAllowed := !r.inFlow, input := rest }

/-- Goes on behind a colon: what began at the last candidate was a key. Without a candidate, the
colon follows a key that was marked, or no key. -/
def colon (r : TokenReader) (x : Located) (rest : Input) : Option TokenReader :=
  match r.candidate with
  | some k =>
    -- What has been read since turns out to be a key: its mark goes in front of it.
    let r := (r.insert k.position .key).indent k.first.column k.position .mappingStart
    some { r.push .value with candidate := none, keyAllowed := false, input := rest }
  -- Without a key in front, the value of an empty one.
  | none => do
    let r ← r.openBlock x .mappingStart
    return { r.push .value with keyAllowed := !r.inFlow, input := rest }

/-- Goes on behind a token that a key may begin with: an alias, anchor, tag or quoted scalar,
which `read` reads. -/
def node (r : TokenReader) (x : Located) {α : Type} (token : α → Token)
    (read : Option (α × Input)) : Option TokenReader := do
  let r ← r.noteCandidate x
  let (a, rest) ← read
  return { r.push (token a) with keyAllowed := false, input := rest }

/-- Goes on behind a plain scalar. -/
def plain (r : TokenReader) (x : Located) : Option TokenReader := do
  let r ← r.noteCandidate x
  let scalar ← readPlain r.inFlow r.inside (r.input.length + 1) {} r.input
  return { r.push (.scalar .plain scalar.text) with
    keyAllowed := scalar.brokenBehind, input := scalar.rest }

/-- Goes on behind a block, of which `s` is what follows its first character. -/
def block (r : TokenReader) (folded : Bool) (s : Input) : Option TokenReader := do
  let r ← r.dropCandidate
  let (text, rest) ← readBlock folded r.inside s
  return { r.push (.scalar (if folded then .other else .literal) text) with
    keyAllowed := true, input := rest }

/-- Whether a plain scalar can begin with a character that is none of the marks read before. -/
def beginsPlain (inFlow : Bool) (c : Char) : Bool :=
  if c = '-' then true
  else if c = '?' ∨ c = ':' then !inFlow
  else !isSpace c
    && c ∉ [',', '[', ']', '\x7b', '\x7d', '#', '&', '*', '!', '|', '>', '\'', '"', '%', '@',
      '\x60']

/-- Reads the next token, which begins with `x` and goes on with `s`. -/
def next (r : TokenReader) (x : Located) (s : Input) : Option TokenReader :=
  let c := x.char
  -- Directives and the marks between documents stand at the margin.
  if c = '%' ∧ x.column = 0 then do
    let (t, rest) ← readDirective s
    r.betweenDocuments t rest
  else if atDocumentMark (x :: s) then
    r.betweenDocuments (if c = '-' then .documentStart else .documentEnd) (s.drop 2)
  -- Brackets and commas mark where they stand.
  else if c = '[' then r.openFlow x .openBracket s
  else if c = '\x7b' then r.openFlow x .openBrace s
  else if c = ']' then r.closeFlow .closeBracket s
  else if c = '\x7d' then r.closeFlow .closeBrace s
  else if c = ',' then r.comma s
  -- These three mark in front of white space only, or between brackets.
  else if c = '-' ∧ atSpace s then r.hyphen x s
  else if c = '?' ∧ (r.inFlow ∨ atSpace s) then r.questionMark x s
  else if c = ':' ∧ (r.inFlow ∨ atSpace s) then r.colon x s
  -- What follows begins a node.
  else if c = '*' then r.node x .alias (readAnchor s)
  else if c = '&' then r.node x .anchor (readAnchor s)
  else if c = '!' then r.node x .tag (readTag r.inFlow (x :: s))
  else if c = '|' ∧ !r.inFlow then r.block false s
  else if c = '>' ∧ !r.inFlow then r.block true s
  else if c = '\'' then r.node x (.scalar .other) (readSingle (s.length + 1) s)
  else if c = '"' then r.node x (.scalar .other) (readDouble (s.length + 1) s)
  else if beginsPlain r.inFlow c then r.plain x
  else none

/-- Reads all tokens. Each takes at least one character. -/
def run : (fuel : Nat) → TokenReader → Option (List Token)
  | 0, _ => none
  | fuel + 1, r =>
    let (keyAllowed, input) := skipSpace r.inFlow false r.keyAllowed r.input
    match input with
    | [] => do
      let r ← (r.close fun _ => true).dropCandidate
      return r.tokens.reverse
    | x :: s => do
      -- A key ends on its line, and a collection where the text is set in less.
      let r ← { r with keyAllowed, input }.expireAll x
      run fuel (← (r.close (x.column < ·)).next x s)

end TokenReader

/-- The tokens of a document stream, or nothing if it is faulty. -/
def Token.stream? (cs : List Char) : Option (List Token) := do
  let input ← Input.ofChars? cs
  TokenReader.run (input.length + 1) { input }

end CompositeCrd.Yaml
