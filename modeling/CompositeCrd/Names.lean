import CompositeCrd.DocumentFormat

/-!
# Names of resources

The names under which a kind of resource is served. A claim is served in the group of its
composite resource, so the two must not clash: `ResourceNames.checkClaim` compares them field
by field. Fields that a claim leaves empty, where it may, clash with nothing.
-/

namespace CompositeCrd

open RecordFormat

/-- The names under which a kind of resource is served. -/
structure ResourceNames where
  /-- The kind. -/
  kind : String
  /-- The plural, which is part of the resource's path. -/
  plural : String
  /-- The singular, empty if it is left to the API server. -/
  singular : String := ""
  /-- The kind of lists, empty if it is left to the API server. -/
  listKind : String := ""
  /-- Short forms for the command line. -/
  shortNames : List String := []
  /-- Groups of kinds that can be listed together. -/
  categories : List String := []
deriving DecidableEq

/-- The document form of names. -/
def ResourceNames.form {C : Type → Type} [RecordFormat C] : C ResourceNames :=
  record
    (.required "kind" text <| .required "plural" text <|
      .omitted "singular" text "" String.isEmpty <| .omitted "listKind" text "" String.isEmpty <|
      .listed "shortNames" text <| .listed "categories" text .done)
    (fun (kind, plural, singular, listKind, shortNames, categories, _) =>
      { kind, plural, singular, listKind, shortNames, categories })
    (fun n => (n.kind, n.plural, n.singular, n.listKind, n.shortNames, n.categories, ()))

/-- The names that a claim must not share with its composite resource. -/
inductive NameField where
  | kind
  | plural
  | singular
  | listKind
deriving DecidableEq, Repr

instance : Spelled NameField where
  all := [.kind, .plural, .singular, .listKind]
  spell
    | .kind => "kind"
    | .plural => "plural"
    | .singular => "singular"
    | .listKind => "listKind"

/-- Why a definition cannot have a claim. -/
inductive ClaimNameError where
  /-- The definition declares no names for a claim. -/
  | missing
  /-- The claim has this name in common with the composite resource. -/
  | conflict (field : NameField) (value : String)
deriving DecidableEq

/-- The wording of an error. -/
def ClaimNameError.message : ClaimNameError → String
  | .missing => "missing names"
  | .conflict field value =>
    "claim " ++ Spelled.spell field ++ " " ++ Text.quoted value
      ++ " conflicts with composite resource name"

namespace ResourceNames

/-- The name in a field. -/
def get (n : ResourceNames) : NameField → String
  | .kind => n.kind
  | .plural => n.plural
  | .singular => n.singular
  | .listKind => n.listKind

/-- Whether the claim leaves a field empty that it may leave empty. -/
def leavesOpen (claim : ResourceNames) : NameField → Bool
  | .kind => false
  | .plural => false
  | .singular => claim.singular.isEmpty
  | .listKind => claim.listKind.isEmpty

/-- Whether the names of the claim and of the composite resource clash in a field. -/
def clashes (claim composite : ResourceNames) (field : NameField) : Bool :=
  !claim.leavesOpen field && claim.get field == composite.get field

/-- The names of a claim, if there are some and they do not clash with those of the composite
resource. The first field that clashes is reported. -/
def checkClaim (composite : ResourceNames) :
    Option ResourceNames → Except ClaimNameError ResourceNames
  | none => .error .missing
  | some claim => match (Spelled.all : List NameField).find? (clashes claim composite) with
    | some field => .error (.conflict field (claim.get field))
    | none => .ok claim

end ResourceNames

end CompositeCrd
