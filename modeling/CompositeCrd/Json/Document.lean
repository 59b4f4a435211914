import CompositeCrd.Json.Literal

/-!
# JSON documents as far as they can be read

A document is decoded in one pass, and the first thing that goes wrong decides the error: a
value of the wrong shape in the first half of a document wins over a missing bracket at its
end. So reading does not fail. `Document.ofSymbols` gives a `Tree` of the whole document in
which each fault stands at its place, and decoders walk that tree in document order and stop
at the first fault or mismatch that they meet.

Whether something is a fault can depend on who looks. A value that nobody asks for is skipped
by `Tree.skip`, which is more tolerant than decoding (`Literal`), so the leaves carry both
outcomes.
-/

namespace CompositeCrd.Json

mutual

/-- A value of a document. -/
inductive Tree where
  /-- The value `null`. -/
  | null
  /-- A truth value. -/
  | bool (b : Bool)
  /-- A number, or `none` if it is too great. -/
  | number (n : Option Number)
  /-- A text, or `none` if what stands between the quotes is no text. -/
  | string (s : Option String)
  /-- A list. -/
  | array (items : Items)
  /-- An object. -/
  | object (members : Members)
  /-- Nothing that can be read: the fault for who asks for the value and for who skips it. -/
  | broken (read skip : Fault)

/-- The items of a list, in order. -/
inductive Items where
  /-- The closing bracket. -/
  | closed
  /-- Neither a closing bracket nor a comma. -/
  | broken (f : Fault)
  /-- An item. Behind a comma there always is one, if need be a broken one. -/
  | item (t : Tree) (rest : Items)

/-- The members of an object, in order. -/
inductive Members where
  /-- The closing brace. -/
  | closed
  /-- Neither a closing brace nor a comma. -/
  | broken (f : Fault)
  /-- Behind the opening brace stands the value `t`, which is no text, in place of a key. -/
  | noKey (t : Tree)
  /-- A key is due and cannot be read, or cannot be skipped. -/
  | badKey (read skip : Fault)
  /-- A member; its key is `none` if what stands between the quotes is no text. The value is
  broken if no colon follows the key. -/
  | member (key : Option String) (value : Tree) (rest : Members)

end

mutual

/-- Passes over a value, and tells the first fault on the way. -/
def Tree.skip : Tree → Except Fault Unit
  | .broken _ f => .error f
  | .array items => items.skip
  | .object members => members.skip
  | _ => .ok ()

/-- Passes over the items of a list. -/
def Items.skip : Items → Except Fault Unit
  | .closed => .ok ()
  | .broken f => .error f
  | .item t rest => match t.skip with
    | .ok () => rest.skip
    | .error f => .error f

/-- Passes over the members of an object. -/
def Members.skip : Members → Except Fault Unit
  | .closed => .ok ()
  | .broken f => .error f
  | .noKey _ => .error .malformed
  | .badKey _ f => .error f
  | .member _ t rest => match t.skip with
    | .ok () => rest.skip
    | .error f => .error f

end

/-- A whole document. -/
structure Document where
  /-- Its value. -/
  root : Tree
  /-- Whether only white space follows the value. -/
  ended : Bool

namespace Document

/-- Whether a symbol is white space between the tokens of a document. -/
def isSpace : Symbol → Bool
  | .char c => c = ' ' || c = '\n' || c = '\t' || c = '\r'
  | .stray _ => false

/-- The document behind leading white space. -/
def skipSpace (s : List Symbol) : List Symbol :=
  s.dropWhile isSpace

/-- The document behind the rest of a fixed word. -/
def word : List Char → List Symbol → Except Fault (List Symbol)
  | [], s => .ok s
  | _ :: _, [] => .error .truncated
  | c :: cs, x :: s => if x = .char c then word cs s else .error .malformed

/-- The value `t`, if the rest of its fixed word follows. -/
def keyword (cs : List Char) (t : Tree) (s : List Symbol) : Tree × List Symbol :=
  match word cs s with
  | .ok s => (t, s)
  | .error f => (.broken f f, [])

/-- A text value behind its opening quote. -/
def text (s : List Symbol) : Tree × List Symbol :=
  match readText s with
  | .ok (cs, s) => (.string (some (String.ofList cs)), s)
  | .error f => match skipText s with
    | .ok s => (.string none, s)
    | .error g => (.broken f g, [])

/-- A numeral. Who skips an unfinished numeral takes it for malformed. -/
def numeral (s : List Symbol) : Tree × List Symbol :=
  match readNumeral s with
  | .ok (n, s) => (.number n.value?, s)
  | .error f => (.broken f .malformed, [])

mutual

/-- The value at the start of a document, and what follows it. Each call is given more `fuel`
than there are symbols and brackets left to read. -/
def value : Nat → List Symbol → Tree × List Symbol
  | 0, _ => (.broken .malformed .malformed, [])
  | fuel + 1, s => match skipSpace s with
    -- What cannot begin a value breaks the document here, and nothing behind is looked at.
    | [] => (.broken .truncated .truncated, [])
    | .stray _ :: _ => (.broken .malformed .malformed, [])
    | .char c :: s =>
      if c = 'n' then keyword ['u', 'l', 'l'] .null s
      else if c = 't' then keyword ['r', 'u', 'e'] (.bool true) s
      else if c = 'f' then keyword ['a', 'l', 's', 'e'] (.bool false) s
      else if c = '"' then text s
      else if c = '-' ∨ c.isDigit then numeral (.char c :: s)
      else if c = '[' then
        let (items, s) := items fuel s
        (.array items, s)
      else if c = '\x7b' then
        let (members, s) := members fuel s
        (.object members, s)
      else (.broken .malformed .malformed, [])

/-- The items of a list behind its opening bracket. -/
def items : Nat → List Symbol → Items × List Symbol
  | 0, _ => (.broken .malformed, [])
  | fuel + 1, s => match skipSpace s with
    | [] => (.broken .truncated, [])
    | x :: s => if x = .char ']' then (.closed, s) else item fuel (x :: s)

/-- An item and the items behind it. -/
def item : Nat → List Symbol → Items × List Symbol
  | 0, _ => (.broken .malformed, [])
  | fuel + 1, s =>
    let (t, s) := value fuel s
    let (rest, s) := moreItems fuel s
    (.item t rest, s)

/-- The items behind an item. -/
def moreItems : Nat → List Symbol → Items × List Symbol
  | 0, _ => (.broken .malformed, [])
  | fuel + 1, s => match skipSpace s with
    | [] => (.broken .truncated, [])
    | x :: s =>
      if x = .char ']' then (.closed, s)
      else if x = .char ',' then item fuel s
      else (.broken .malformed, [])

/-- The members of an object behind its opening brace. -/
def members : Nat → List Symbol → Members × List Symbol
  | 0, _ => (.broken .malformed, [])
  | fuel + 1, s => match skipSpace s with
    | [] => (.broken .truncated, [])
    | x :: s =>
      if x = .char '\x7d' then (.closed, s)
      else if x = .char '"' then member fuel s
      -- No key: what stands there instead is kept for the message.
      else (.noKey (value fuel (x :: s)).1, [])

/-- A member behind the opening quote of its key, and the members behind it. -/
def member : Nat → List Symbol → Members × List Symbol
  | 0, _ => (.broken .malformed, [])
  | fuel + 1, s => match readText s with
    | .ok (cs, s) => afterKey fuel (some (String.ofList cs)) s
    -- The key is no text, but it may end.
    | .error f => match skipText s with
      | .ok s => afterKey fuel none s
      | .error g => (.badKey f g, [])

/-- The colon and value of a member, and the members behind it. -/
def afterKey : Nat → Option String → List Symbol → Members × List Symbol
  | 0, _, _ => (.broken .malformed, [])
  | fuel + 1, key, s => match skipSpace s with
    | [] => (.member key (.broken .truncated .truncated) .closed, [])
    | x :: s =>
      if x = .char ':' then
        let (t, s) := value fuel s
        let (rest, s) := moreMembers fuel s
        (.member key t rest, s)
      else (.member key (.broken .malformed .malformed) .closed, [])

/-- The members behind a member. -/
def moreMembers : Nat → List Symbol → Members × List Symbol
  | 0, _ => (.broken .malformed, [])
  | fuel + 1, s => match skipSpace s with
    | [] => (.broken .truncated, [])
    | x :: s =>
      if x = .char '\x7d' then (.closed, s)
      else if x = .char ',' then
        -- Behind a comma there must be another member.
        match skipSpace s with
        | [] => (.badKey .truncated .truncated, [])
        | y :: s => if y = .char '"' then member fuel s else (.badKey .malformed .malformed, [])
      else (.broken .malformed, [])

end

/-- Reads a document. Between two symbols that are read, a call descends at most four times. -/
def ofSymbols (s : List Symbol) : Document :=
  let (root, rest) := value (4 * s.length + 4) s
  { root, ended := (skipSpace rest).isEmpty }

/-- Reads a document that is given as text. -/
def ofText (s : String) : Document :=
  ofSymbols (s.toList.map .char)

/-- Reads a document that is given as bytes. -/
def ofBytes (bytes : List UInt8) : Document :=
  ofSymbols (Utf8.symbols bytes)

end Document

end CompositeCrd.Json
