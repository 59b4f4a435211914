import CompositeCrd.Crd
import CompositeCrd.Definition
import CompositeCrd.Schema.Overlay

/-!
# From definitions to custom resource definitions

Each variant of a definition gives one custom resource definition, with one version for each
version of the definition. The schema of a version is assembled in layers, each laid over the
ones before it:

* the envelope of an object,
* the properties that the author gives `spec`,
* the standard properties of the variant under `spec`,
* the standard properties under `status`.

So an author can add to `spec`, but can neither change the standard properties nor reach
anything outside `spec`.
-/

namespace CompositeCrd

/-- Why a definition cannot be turned into a custom resource definition. -/
inductive GenerateError where
  /-- The names of the claim are missing or clash. -/
  | claimNames (cause : ClaimNameError)
  /-- The validation schema of a version cannot be read. -/
  | specProperties (version : String) (cause : Json.DecodeError)

/-- The wording of an error, without its cause. -/
def GenerateError.message : GenerateError → String
  | .claimNames _ => "invalid resource claim names"
  | .specProperties _ _ => "cannot get spec properties from validation schema"

/-- The wording of an unreadable validation schema, without its cause. -/
def unreadableSchema : String :=
  "cannot parse validation schema"

/-- The wording of an error and of its causes. -/
def GenerateError.explanation (e : GenerateError) : String :=
  match e with
  | .claimNames cause => e.message ++ ": " ++ cause.message
  | .specProperties _ cause => e.message ++ ": " ++ unreadableSchema ++ ": " ++ cause.message

namespace Schema

/-- The schema of a version, given the properties that its author gave `spec`. -/
def assemble (variant : Variant) (authored : PropertyTree) : Schema :=
  { object with properties := Standard.base }
    |>.overlay authored "spec"
    |>.overlay variant.specProperties "spec"
    |>.overlay Standard.status "status"

end Schema

/-- The version of a custom resource definition that comes from a version of a definition. -/
def DefinitionVersion.generate (variant : Variant) (v : DefinitionVersion) :
    Except GenerateError CrdVersion :=
  match CompositeCrd.specProperties v.schema with
  | .error cause => .error (.specProperties v.name cause)
  | .ok authored => .ok
    { name := v.name
      served := v.served
      storage := v.referenceable
      additionalPrinterColumns := v.additionalPrinterColumns ++ variant.columns
      schema := Schema.assemble variant authored
      statusSubresource := true }

namespace Definition

/-- The name and the names of the resource that a variant describes. -/
def identity (d : Definition) : Variant → Except GenerateError (String × ResourceNames)
  | .composite => .ok (d.metadata.name, d.spec.names)
  | .claim => match d.checkedClaimNames with
    | .ok claim => .ok (claim.plural ++ "." ++ d.spec.group, claim)
    | .error cause => .error (.claimNames cause)

/-- The custom resource definition for a variant. -/
def generate (d : Definition) (variant : Variant) : Except GenerateError Crd := do
  -- The names come first, so a claim without names fails before its schemas are looked at.
  let (name, names) ← d.identity variant
  let versions ← d.spec.versions.mapM (·.generate variant)
  return {
    apiVersion := Crd.generatedApiVersion
    kind := Crd.generatedKind
    metadata :=
      { name
        labels := d.metadata.labels
        annotations := d.metadata.annotations
        ownerReferences := [d.controllerReference] }
    spec :=
      { group := d.spec.group
        names := { names with categories := names.categories ++ [variant.category] }
        scope := variant.scope
        versions } }

end Definition

end CompositeCrd
