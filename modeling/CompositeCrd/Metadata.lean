import CompositeCrd.DocumentFormat

/-!
# Metadata of objects

What definitions and generated resources carry about themselves: name, labels, annotations, and
the objects that own them.
-/

namespace CompositeCrd

open RecordFormat DocumentFormat

/-- A reference from an object to one that owns it. -/
structure OwnerReference where
  /-- The group and version of the owner, separated by a slash. -/
  apiVersion : String
  /-- The kind of the owner. -/
  kind : String
  /-- The name of the owner. -/
  name : String
  /-- The identifier of the owner, empty if it is not known. -/
  uid : String := ""
  /-- Whether the owner manages the object. -/
  controller : Option Bool := none
  /-- Whether the object keeps its owner from being deleted. -/
  blockOwnerDeletion : Option Bool := none
deriving DecidableEq

namespace OwnerReference

variable {C : Type → Type} [DocumentFormat C]

/-- The document form. -/
def form : C OwnerReference :=
  record
    (.required "apiVersion" text <| .required "kind" text <| .required "name" text <|
      .defaulted "uid" text "" <| .optional "controller" flag <|
      .optional "blockOwnerDeletion" flag .done)
    (fun (apiVersion, kind, name, uid, controller, blockOwnerDeletion, _) =>
      { apiVersion, kind, name, uid, controller, blockOwnerDeletion })
    (fun r => (r.apiVersion, r.kind, r.name, r.uid, r.controller, r.blockOwnerDeletion, ()))

/-- The parts of a text in front of and behind its last slash, if it has one. -/
def splitLast (cs : List Char) : Option (List Char × List Char) :=
  let behind := cs.reverse.takeWhile (· ≠ '/')
  match cs.reverse.dropWhile (· ≠ '/') with
  | [] => none
  | _ :: front => some (front.reverse, behind.reverse)

/-- The group of the owner, which is empty for the core group. -/
def group (r : OwnerReference) : String :=
  match splitLast r.apiVersion.toList with
  | some (group, _) => String.ofList group
  | none => ""

/-- The version of the owner. -/
def version (r : OwnerReference) : String :=
  match splitLast r.apiVersion.toList with
  | some (_, version) => String.ofList version
  | none => r.apiVersion

end OwnerReference

/-- What an object carries about itself. -/
structure ObjectMeta where
  /-- The name. -/
  name : String
  /-- The identifier that the API server gave the object, once it is known. -/
  uid : Option String := none
  /-- The labels. -/
  labels : SortedMap String := .empty
  /-- The annotations. -/
  annotations : SortedMap String := .empty
  /-- The objects that own this one. -/
  ownerReferences : List OwnerReference := []
deriving DecidableEq

/-- The document form of metadata. -/
def ObjectMeta.form {C : Type → Type} [DocumentFormat C] : C ObjectMeta :=
  record
    (.required "name" text <| .optional "uid" text <| .mapped "labels" text <|
      .mapped "annotations" text <| .listed "ownerReferences" OwnerReference.form .done)
    (fun (name, uid, labels, annotations, ownerReferences, _) =>
      { name, uid, labels, annotations, ownerReferences })
    (fun m => (m.name, m.uid, m.labels, m.annotations, m.ownerReferences, ()))

end CompositeCrd
