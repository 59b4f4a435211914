/-!
# Records by their fields

The objects of this library are records with named fields that are read from two notations and
written in two. `Fields C α` describes the fields of a record once: in the order of
declaration, each with its name, the codec `C` of its value, the value that a missing field
takes, and the values for which the field is not written.

Reading fills **slots**, one for each field, in whatever order the document gives them
(`Fields.put`), and takes stock at the end (`Fields.finish`): missing fields are found in the
order of declaration. Both notations share this part; what a codec is, they say themselves.

`Spelled` is the corresponding description of enumerations.
-/

namespace CompositeCrd

/-- The fields of a record, in the order of declaration. The record itself is a nested pair
of their values, of type `α`; the slots that are filled while it is read are a nested pair of
type `σ`. -/
inductive Fields (C : Type → Type) : (σ α : Type) → Type 1 where
  /-- No more fields. -/
  | done : Fields C Unit Unit
  /-- A field: its name, its codec, the value it has when it is missing (`none` if it must not
  be missing), and the values for which it is not written. -/
  | field {α σ β : Type} (name : String) (codec : C α) (absent : Option α) (omits : α → Bool)
      (rest : Fields C σ β) : Fields C (Option α × σ) (α × β)

namespace Fields

variable {C : Type → Type} {α β σ : Type}

/-- A field that is always written and must not be missing. -/
def required (name : String) (codec : C α) (rest : Fields C σ β) :
    Fields C (Option α × σ) (α × β) :=
  .field name codec none (fun _ => false) rest

/-- A field that takes `default` when it is missing, and is always written. -/
def defaulted (name : String) (codec : C α) (default : α) (rest : Fields C σ β) :
    Fields C (Option α × σ) (α × β) :=
  .field name codec (some default) (fun _ => false) rest

/-- A field that takes `default` when it is missing, and is not written for the values that
`omits` holds of. -/
def omitted (name : String) (codec : C α) (default : α) (omits : α → Bool)
    (rest : Fields C σ β) : Fields C (Option α × σ) (α × β) :=
  .field name codec (some default) omits rest

/-- Slots with nothing in them. -/
def empty : {σ β : Type} → Fields C σ β → σ
  | _, _, .done => ()
  | _, _, .field _ _ _ _ rest => (none, rest.empty)

/-- Fills the slot of the field called `name` with what `run` gives for its codec, or answers
`none` if there is no such field. For a slot that is full already `full` is run. -/
def put {m : Type → Type} [Monad m] (run : {α : Type} → C α → m α)
    (full : {α : Type} → String → m α) (name : String) :
    {σ β : Type} → Fields C σ β → σ → Option (m σ)
  | _, _, .done, _ => none
  | _, _, .field n codec _ _ rest, (slot, slots) =>
    if n = name then
      some (if slot.isSome then full n else do return (some (← run codec), slots))
    else
      (put run full name rest slots).map fun act => do return (slot, ← act)

/-- The record in the slots, or the name of the first field that is missing. -/
def finish : {σ β : Type} → Fields C σ β → σ → Except String β
  | _, _, .done, _ => .ok ()
  | _, _, .field name _ absent _ rest, (slot, slots) =>
    match slot.or absent with
    | none => .error name
    | some a => match rest.finish slots with
      | .ok b => .ok (a, b)
      | .error missing => .error missing

end Fields

/-- Enumerations, whose values are spelled out in documents. -/
class Spelled (α : Type) where
  /-- All values. -/
  all : List α
  /-- The spelling of a value. -/
  spell : α → String

/-- The value that is spelled `s`. -/
def Spelled.ofText? {α : Type} [Spelled α] (s : String) : Option α :=
  (Spelled.all : List α).find? fun a => spell a == s

end CompositeCrd
