import CompositeCrd.Text.Utf8
import CompositeCrd.Yaml.Token.Stream

/-!
# From tokens to nodes

A document is a tree of nodes: scalars, lists, mappings, and aliases, which stand for the node
with an anchor. Where a node is missing, as behind a colon with nothing after it, there is an
empty plain scalar.

Anchors are numbered, and aliases carry numbers. A number is the count of names that have been
given when the anchor is met; so an anchor that takes over a name of an earlier one may share
its number with a later anchor, and of those with one number the last counts.

`Node.ofText?` reads a text with at most one document.
-/

namespace CompositeCrd.Yaml

/-- A node of a document. -/
inductive Node where
  /-- A scalar. -/
  | scalar (anchor : Option Nat) (tag : Option Tag) (style : ScalarStyle) (text : List Char)
  /-- A list. -/
  | list (anchor : Option Nat) (tag : Option Tag) (items : List Node)
  /-- A mapping. -/
  | mapping (anchor : Option Nat) (tag : Option Tag) (entries : List (Node × Node))
  /-- The node with the anchor of this number. -/
  | alias (number : Nat)
deriving Inhabited

namespace Node

/-- The node that stands where there is none. -/
def missing : Node :=
  .scalar none none .plain []

mutual

/-- The number of marks that a node consists of: one for a scalar or alias, two for the ends of
a collection. -/
def size : Node → Nat
  | .scalar _ _ _ _ => 1
  | .list _ _ items => 2 + sizeItems items
  | .mapping _ _ entries => 2 + sizeEntries entries
  | .alias _ => 1

/-- The marks of a list's items. -/
def sizeItems : List Node → Nat
  | [] => 0
  | n :: ns => n.size + sizeItems ns

/-- The marks of a mapping's entries. -/
def sizeEntries : List (Node × Node) → Nat
  | [] => 0
  | (k, v) :: entries => k.size + v.size + sizeEntries entries

end

mutual

/-- The anchored nodes in document order, each with its number. -/
def anchored : Node → List (Nat × Node)
  | .scalar anchor tag style text => (anchor.map (·, .scalar anchor tag style text)).toList
  | .list anchor tag items => (anchor.map (·, .list anchor tag items)).toList ++ anchoredItems items
  | .mapping anchor tag entries =>
    (anchor.map (·, .mapping anchor tag entries)).toList ++ anchoredEntries entries
  | .alias _ => []

/-- The anchored nodes of a list's items. -/
def anchoredItems : List Node → List (Nat × Node)
  | [] => []
  | n :: ns => n.anchored ++ anchoredItems ns

/-- The anchored nodes of a mapping's entries. -/
def anchoredEntries : List (Node × Node) → List (Nat × Node)
  | [] => []
  | (k, v) :: entries => k.anchored ++ v.anchored ++ anchoredEntries entries

end

end Node

/-- The state of reading nodes. -/
structure NodeReader where
  /-- The tokens that are left. -/
  tokens : List Token
  /-- What handles of tags stand for. -/
  handles : List (List Char × Tag)
  /-- The names of anchors and their numbers, the last name first. -/
  names : List (List Char × Nat) := []

namespace NodeReader

/-- Steps of reading nodes, which fail when the tokens are not as they should be. -/
abbrev Step := StateT NodeReader Option

/-- The next token. -/
def peek : Step (Option Token) :=
  return (← get).tokens.head?

/-- Passes over the next token. -/
def skip : Step Unit :=
  modify fun r => { r with tokens := r.tokens.tail }

/-- Whether the next token is one of these. -/
def nextIs (ts : List Token) : Step Bool :=
  return (← peek).any (· ∈ ts)

/-- Gives an anchor its number. -/
def name (anchor : List Char) : Step Nat := do
  let r ← get
  let number := r.names.length
  -- the name is taken away from the anchor that had it
  set { r with names := (anchor, number) :: r.names.filter (·.1 ≠ anchor) }
  return number

/-- The number of the anchor with a name. -/
def number (anchor : List Char) : Step Nat := do
  match (← get).names.find? (·.1 = anchor) with
  | some (_, number) => return number
  | none => failure

/-- The whole tag that a tag's name stands for. -/
def resolveTag (name : TagName) : Step Tag := do
  if name.handle.isEmpty then return name.suffix
  match (← get).handles.find? (·.1 = name.handle) with
  | some (_, start) => return start ++ name.suffix
  | none => failure

/-- Reads the anchor and the tag of a node, which come in any order. -/
def properties : Step (Option (List Char) × Option TagName) := do
  match ← peek with
  | some (.anchor a) =>
    skip
    match ← peek with
    | some (.tag t) =>
      skip
      return (some a, some t)
    | _ => return (some a, none)
  | some (.tag t) =>
    skip
    match ← peek with
    | some (.anchor a) =>
      skip
      return (some a, some t)
    | _ => return (none, some t)
  | _ => return (none, none)

/-- A scalar's tag, of which the mark for an open choice counts as none. -/
def scalarTag (tag : Option Tag) : Option Tag :=
  if tag = some (Utf8.encodeChar '!') then none else tag

/-- Passes over the mark between two items or entries in brackets. In front of the first there
is none, and the closing mark may follow a comma. -/
def separate (first : Bool) (closing : Token) : Step Unit := do
  if !first && !(← nextIs [closing]) then
    if ← nextIs [.comma] then skip else failure

mutual

/-- Reads a node. In a `block`, collections may be set off by indentation, and below a key
(`underKey`) the items of a list need not be indented. -/
def node : (fuel : Nat) → (block underKey : Bool) → Step Node
  | 0, _, _ => failure
  | fuel + 1, block, underKey => do
    -- An alias has no anchor and no tag.
    if let some (.alias a) ← peek then
      skip
      return .alias (← number a)
    let (anchor, tagName) ← properties
    let tag ← tagName.mapM resolveTag
    match ← peek with
    -- Items that are not indented stand under a key only.
    | some .hyphen =>
      if underKey then
        return .list (← anchor.mapM name) tag (← looseItems fuel)
      else emptyNode anchor tag
    | some (.scalar style text) =>
      skip
      return .scalar (← anchor.mapM name) (scalarTag tag) style text
    | some .openBracket =>
      skip
      return .list (← anchor.mapM name) tag (← flowItems fuel true)
    | some .openBrace =>
      skip
      return .mapping (← anchor.mapM name) tag (← flowEntries fuel true)
    -- Between brackets nothing is indented, so a node there is empty.
    | some .listStart =>
      if block then
        skip
        return .list (← anchor.mapM name) tag (← items fuel)
      else emptyNode anchor tag
    | some .mappingStart =>
      if block then
        skip
        return .mapping (← anchor.mapM name) tag (← entries fuel)
      else emptyNode anchor tag
    -- Any other token belongs to what is around the node.
    | _ => emptyNode anchor tag

/-- A node of which there is nothing but an anchor or a tag. -/
def emptyNode (anchor : Option (List Char)) (tag : Option Tag) : Step Node := do
  if anchor.isNone && tag.isNone then failure
  return .scalar (← anchor.mapM name) tag .plain []

/-- Reads the items of an indented list, with its end. -/
def items : (fuel : Nat) → Step (List Node)
  | 0 => failure
  | fuel + 1 => do
    if ← nextIs [.hyphen] then
      skip
      -- Behind a hyphen there may be nothing.
      let n ← nodeUnless fuel true false [.hyphen, .blockEnd]
      return n :: (← items fuel)
    else if ← nextIs [.blockEnd] then
      skip
      return []
    else failure

/-- Reads the items of a list that is not indented, up to something else. -/
def looseItems : (fuel : Nat) → Step (List Node)
  | 0 => failure
  | fuel + 1 => do
    if ← nextIs [.hyphen] then
      skip
      let n ← nodeUnless fuel true false [.hyphen, .key, .value, .blockEnd]
      return n :: (← looseItems fuel)
    else return []

/-- Reads the entries of an indented mapping, with its end. -/
def entries : (fuel : Nat) → Step (List (Node × Node))
  | 0 => failure
  | fuel + 1 => do
    if ← nextIs [.key] then
      skip
      -- Both the key and the value may be missing.
      let k ← nodeUnless fuel true true [.key, .value, .blockEnd]
      let v ← valueUnless fuel true true [.key, .value, .blockEnd]
      return (k, v) :: (← entries fuel)
    else if ← nextIs [.blockEnd] then
      skip
      return []
    else failure

/-- Reads the items of a list in brackets, with its end. An item may be a key with its value,
which counts as a mapping of its own. -/
def flowItems : (fuel : Nat) → (first : Bool) → Step (List Node)
  | 0, _ => failure
  | fuel + 1, first => do
    separate first .closeBracket
    if ← nextIs [.closeBracket] then
      skip
      return []
    else if ← nextIs [.key] then
      skip
      let k ← if ← nextIs [.value, .comma, .closeBracket] then
          -- the mark that shows that there is no key is used up
          skip
          pure Node.missing
        else node fuel false false
      let v ← valueUnless fuel false false [.comma, .closeBracket]
      return .mapping none none [(k, v)] :: (← flowItems fuel false)
    else
      let n ← node fuel false false
      return n :: (← flowItems fuel false)

/-- Reads the entries of a mapping in braces, with its end. -/
def flowEntries : (fuel : Nat) → (first : Bool) → Step (List (Node × Node))
  | 0, _ => failure
  | fuel + 1, first => do
    separate first .closeBrace
    if ← nextIs [.closeBrace] then
      skip
      return []
    else if ← nextIs [.key] then
      skip
      let k ← nodeUnless fuel false false [.value, .comma, .closeBrace]
      let v ← valueUnless fuel false false [.comma, .closeBrace]
      return (k, v) :: (← flowEntries fuel false)
    else
      -- Without a mark there is a key and no value.
      let k ← node fuel false false
      return (k, .missing) :: (← flowEntries fuel false)

/-- Reads a node, which is missing if one of these tokens is next. -/
def nodeUnless : (fuel : Nat) → (block underKey : Bool) → List Token → Step Node
  | 0, _, _, _ => failure
  | fuel + 1, block, underKey, ts => do
    if ← nextIs ts then return .missing else node fuel block underKey

/-- Reads the colon and the value of an entry. Without the colon, or if one of these tokens is
behind it, the value is missing. -/
def valueUnless : (fuel : Nat) → (block underKey : Bool) → List Token → Step Node
  | 0, _, _, _ => failure
  | fuel + 1, block, underKey, ts => do
    if ← nextIs [.value] then
      skip
      if ← nextIs ts then return .missing else node fuel block underKey
    else return .missing

end

end NodeReader

/-- The handles that every document knows. -/
def standardHandles : List (List Char × Tag) :=
  [(['!'], Utf8.encode "!"), (['!', '!'], Utf8.encode "tag:yaml.org,2002:")]

/-- Reads the directives in front of a document: the handles that they declare, each once, and
the other tokens. The version is given at most once and is 1.1 or 1.2. -/
def directives (versionGiven : Bool) (handles : List (List Char × Tag)) :
    List Token → Option (List (List Char × Tag) × List Token)
  | .version major minor :: ts =>
    if versionGiven || major ≠ 1 || (minor ≠ 1 && minor ≠ 2) then none
    else directives true handles ts
  | .handle name start :: ts =>
    if handles.any (·.1 = name) then none
    else directives versionGiven ((name, start) :: handles) ts
  | ts => some (handles, ts)

namespace Node

/-- Reads the document behind the mark of its start, or one without such a mark, and gives the
tokens behind it. Behind the mark the document may be missing. -/
def ofTokens? (handles : List (List Char × Tag)) (marked : Bool) (tokens : List Token) :
    Option (Node × List Token) := do
  -- Each token is looked at by four readers at most.
  let fuel := 4 * tokens.length + 4
  -- There may be nothing between two marks.
  if marked && tokens.head?.all (· ∈ [.documentStart, .documentEnd]) then
    return (missing, tokens)
  let (root, r) ← (NodeReader.node fuel true false).run { tokens, handles }
  return (root, r.tokens)

/-- Reads a stream of tokens with at most one document. A stream without any stands for the
missing node. -/
def ofStream? (tokens : List Token) : Option Node := do
  if tokens.isEmpty then return missing
  let (declared, rest) ← directives false [] tokens
  let (root, rest) ← match rest with
    | .documentStart :: rest => ofTokens? (declared ++ standardHandles) true rest
    | _ =>
      -- directives need the mark behind them
      if rest.length < tokens.length then none else ofTokens? standardHandles false tokens
  if rest.all (· = .documentEnd) then return root else none

/-- Reads a text with at most one document. -/
def ofText? (cs : List Char) : Option Node := do
  ofStream? (← Token.stream? cs)

end Node

end CompositeCrd.Yaml
