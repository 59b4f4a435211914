import CompositeCrd.Yaml.Reader

/-!
# Values without a shape

A document of which it is not known what it holds is read as a `Dynamic` value: scalars are
what they look like, keys may be any values, and no two keys of a mapping may be equal. Values
with a tag of the document's own keep its name.

A value can be looked into (`Dynamic.get?`) and read as a record later (`Extract`). That is
stricter than reading a record from a document at once, since a scalar that looks like a
number or a truth value is no longer a text.
-/

namespace CompositeCrd.Yaml

/-- A value of a document. -/
inductive Dynamic where
  /-- A scalar that is no text. -/
  | plain (r : Resolved)
  /-- A text. -/
  | text (s : String)
  /-- A list. -/
  | list (items : List Dynamic)
  /-- A mapping. -/
  | mapping (entries : List (Dynamic × Dynamic))
  /-- A value with a tag. -/
  | tagged (name : String) (v : Dynamic)

/-- Equality of what scalars stand for; the two zeros are equal. -/
def Resolved.same : Resolved → Resolved → Bool
  | .float x, .float y => x.same y
  | a, b => a == b

namespace Dynamic

mutual

/-- Equality of values. Mappings are equal when they have the same entries in any order. -/
def same : Dynamic → Dynamic → Bool
  | .plain a, .plain b => a.same b
  | .text a, .text b => a == b
  | .list as, .list bs => sameItems as bs
  | .mapping as, .mapping bs => as.length == bs.length && includes bs as
  | .tagged a v, .tagged b w => a == b && v.same w
  | _, _ => false

/-- Equality of lists of values. -/
def sameItems : List Dynamic → List Dynamic → Bool
  | [], [] => true
  | a :: as, b :: bs => a.same b && sameItems as bs
  | _, _ => false

/-- Whether all entries of the second list are equal to some in the first. -/
def includes (bs : List (Dynamic × Dynamic)) : List (Dynamic × Dynamic) → Bool
  | [] => true
  | (k, v) :: as => bs.any (fun e => k.same e.1 && v.same e.2) && includes bs as

end

/-- A scalar, which has no value if it is an integer of more than 64 bits. -/
def ofScalar? (cs : List Char) : Resolved → Option Dynamic
  | .text => some (.text (String.ofList cs))
  | .int n => if Json.Number.fits n then some (.plain (.int n)) else none
  | r => some (.plain r)

/-- A value with the tag of a node, if that is one of the document's own. Of two exclamation
marks the second does not count either. -/
def withTag (tag : Option Tag) (v : Dynamic) : Dynamic :=
  match localTag? tag with
  | none => v
  | some name => .tagged (unmarked name) v
where
  /-- The name without an exclamation mark in front of it. -/
  unmarked (name : String) : String :=
    match name.toList with
    | '!' :: c :: cs => String.ofList (c :: cs)
    | _ => name

/-- The mapping with these entries, unless two keys are equal. -/
def mappingOf? (entries : List (Dynamic × Dynamic)) : Option Dynamic :=
  if distinct entries then some (.mapping entries) else none
where
  /-- Whether no key is equal to a later one. -/
  distinct : List (Dynamic × Dynamic) → Bool
    | [] => true
    | e :: entries => !entries.any (fun e' => e.1.same e'.1) && distinct entries

/-- The value of a node. For the keys of a mapping that has a tag of its own, tags do not
count (`ignoreTag`). -/
def ofNode (anchors : List (Nat × Node)) : (depth : Nat) → (ignoreTag : Bool) → Node → Steps Dynamic
  | depth, ignoreTag, n => do
    match ← follow anchors n with
    | .scalar _ tag style cs =>
      let tag := if ignoreTag then none else tag
      -- A tag that only this document knows does not decide how the text is read.
      let known := if (localTag? tag).isSome then none else tag
      return withTag tag (← ofOption (ofScalar? cs (← ofOption (scalar? known style cs))))
    | .list _ tag items =>
      match depth with
      | 0 => failure
      | depth + 1 =>
        let tag := if ignoreTag then none else tag
        return withTag tag (.list (← items.mapM (ofNode anchors depth false)))
    | .mapping _ tag entries =>
      match depth with
      | 0 => failure
      | depth + 1 =>
        -- Below a mapping with a tag of its own the keys are looked at without theirs.
        let keysIgnore := ignoreTag || (localTag? tag).isSome
        let entries ← entries.mapM fun e => do
          let k ← ofNode anchors depth keysIgnore e.1
          return (k, ← ofNode anchors depth false e.2)
        let tag := if ignoreTag then none else tag
        return withTag tag (← ofOption (mappingOf? entries))
    -- What an alias stands for is no alias again.
    | .alias _ => failure

/-- Reads a text as a value. -/
def ofText? (s : String) : Option Dynamic :=
  (Reader.mk fun anchors depth n => ofNode anchors depth false n).ofText? s

/-- The value without its tag. -/
def untagged : Dynamic → Dynamic
  | .tagged _ v => v
  | v => v

/-- The value under a text in a mapping. -/
def get? (v : Dynamic) (key : String) : Option Dynamic :=
  match v.untagged with
  | .mapping entries => (entries.find? fun e => e.1.same (.text key)).map (·.2)
  | _ => none

end Dynamic

/-- A way to read values of a type from values without a shape. -/
structure Extract (α : Type) where
  /-- Reads a value. -/
  read : Dynamic → Option α

namespace Extract

variable {α β σ : Type}

/-- The text in a value. -/
def textOf (v : Dynamic) : Option String :=
  match v.untagged with
  | .text s => some s
  | _ => none

/-- Enumerations: the spelling as a text, or as a tag for nothing. -/
def spelledOf [Spelled α] : Dynamic → Option α
  | .text s => Spelled.ofText? s
  | .tagged name (.plain .null) => Spelled.ofText? name
  | _ => none

/-- Values that may be absent. -/
def nullable (e : Extract α) : Extract (Option α) where
  read
    | .plain .null => some none
    | v => (e.read v).map some

/-- Lists; nothing is an empty one. -/
def list (e : Extract α) : Extract (List α) where
  read v := match v.untagged with
    | .list items => items.mapM e.read
    | .plain .null => some []
    | _ => none

/-- Fills the slots of a record from the entries of a mapping. Unknown keys are skipped. -/
def fill (fields : Fields Extract σ β) : List (Dynamic × Dynamic) → σ → Option σ
  | [], slots => some slots
  | (k, v) :: entries, slots => do
    match fields.put (m := Option) (fun e => e.read v) (fun _ => none) (← textOf k) slots with
    | some filled => fill fields entries (← filled)
    | none => fill fields entries slots

/-- Records, made from their fields by `make`; nothing is one without fields. -/
def record (fields : Fields Extract σ β) (make : β → α) : Extract α where
  read v := do
    let entries ← match v.untagged with
      | .mapping entries => some entries
      | .plain .null => some []
      | _ => none
    match fields.finish (← fill fields entries fields.empty) with
    | .ok b => return make b
    | .error _ => none

end Extract

instance : RecordFormat Extract where
  text := ⟨Extract.textOf⟩
  spelled := ⟨Extract.spelledOf⟩
  nullable := .nullable
  list := .list
  record fields make _ := .record fields make

end CompositeCrd.Yaml
