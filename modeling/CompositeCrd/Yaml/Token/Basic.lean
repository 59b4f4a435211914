/-!
# Tokens

What a YAML document is made of, once its indentation has been read: each collection that is
set off by indentation has a token at its start and at its end, just as those in brackets, and
each key has a token in front of it, even where the document has none.
-/

namespace CompositeCrd.Yaml

/-- How a scalar is written, as far as readers care. -/
inductive ScalarStyle where
  /-- Without quotes. -/
  | plain
  /-- As a block whose line breaks stay. -/
  | literal
  /-- Between quotes, or as a block whose lines are joined. -/
  | other
deriving DecidableEq, Repr

/-- The bytes of a tag. -/
abbrev Tag := List UInt8

/-- A tag as it is written: the handle stands for the start of the tag, and is empty when the
tag is written out. -/
structure TagName where
  /-- The handle. -/
  handle : List Char
  /-- The rest of the tag. -/
  suffix : Tag
deriving DecidableEq, Repr

/-- A token of a document. -/
inductive Token where
  /-- The version of the notation. -/
  | version (major minor : Nat)
  /-- What a handle stands for. -/
  | handle (name : List Char) (start : Tag)
  /-- The start of a document. -/
  | documentStart
  /-- The end of a document. -/
  | documentEnd
  /-- The start of a list by indentation. -/
  | listStart
  /-- The start of a mapping by indentation. -/
  | mappingStart
  /-- The end of a collection by indentation. -/
  | blockEnd
  /-- An opening bracket. -/
  | openBracket
  /-- A closing bracket. -/
  | closeBracket
  /-- An opening brace. -/
  | openBrace
  /-- A closing brace. -/
  | closeBrace
  /-- The hyphen in front of an item. -/
  | hyphen
  /-- A comma. -/
  | comma
  /-- The start of a key. -/
  | key
  /-- The colon in front of a value. -/
  | value
  /-- A reference to an anchor. -/
  | alias (name : List Char)
  /-- An anchor for the node that follows. -/
  | anchor (name : List Char)
  /-- The tag of the node that follows. -/
  | tag (name : TagName)
  /-- A scalar. -/
  | scalar (style : ScalarStyle) (text : List Char)
deriving DecidableEq, Repr

end CompositeCrd.Yaml
