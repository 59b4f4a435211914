import CompositeCrd.Metadata
import CompositeCrd.Names
import CompositeCrd.PrinterColumn

/-!
# Definitions of composite resources

A definition describes a new kind of resource in the abstract: its group, the names of the
composite resource, the names of the claim if it offers one, and its versions, each with the
validation schema that its author gave it.

Definitions are read from manifests or put together by the functions in `Definition`. The
resources that are generated from a definition refer back to it by `controllerReference`.
-/

namespace CompositeCrd

open RecordFormat DocumentFormat

/-- One version of a definition. -/
structure DefinitionVersion where
  /-- The name of the version. -/
  name : String
  /-- Whether the version is served. -/
  served : Bool := true
  /-- Whether claims and compositions refer to this version, which is then the stored one. -/
  referenceable : Bool := false
  /-- The printer columns of the author. -/
  additionalPrinterColumns : List PrinterColumn := []
  /-- The validation schema of the author. -/
  schema : Option RawSchema := none
deriving DecidableEq

namespace DefinitionVersion

/-- The document form of a validation schema inside a version. -/
def validationForm {C : Type → Type} [DocumentFormat C] : C RawSchema :=
  record (.required "openAPIV3Schema" rawSchema .done) (fun (schema, _) => schema)
    (fun schema => (schema, ()))

/-- The document form. -/
def form {C : Type → Type} [DocumentFormat C] : C DefinitionVersion :=
  record
    (.required "name" text <| .required "served" flag <| .required "referenceable" flag <|
      .listed "additionalPrinterColumns" PrinterColumn.form <|
      .optional "schema" validationForm .done)
    (fun (name, served, referenceable, additionalPrinterColumns, schema, _) =>
      { name, served, referenceable, additionalPrinterColumns, schema })
    (fun v => (v.name, v.served, v.referenceable, v.additionalPrinterColumns, v.schema, ()))

end DefinitionVersion

/-- What a definition asks for. -/
structure DefinitionSpec where
  /-- The group of the composite resource and of its claim. -/
  group : String
  /-- The names of the composite resource. -/
  names : ResourceNames
  /-- The names of the claim, if one is offered. -/
  claimNames : Option ResourceNames := none
  /-- The versions, in order. -/
  versions : List DefinitionVersion := []
deriving DecidableEq

/-- The document form of what a definition asks for. -/
def DefinitionSpec.form {C : Type → Type} [DocumentFormat C] : C DefinitionSpec :=
  record
    (.required "group" text <| .required "names" ResourceNames.form <|
      .optional "claimNames" ResourceNames.form <|
      .defaulted "versions" (list DefinitionVersion.form) [] .done)
    (fun (group, names, claimNames, versions, _) => { group, names, claimNames, versions })
    (fun s => (s.group, s.names, s.claimNames, s.versions, ()))

/-- The definition of a composite resource and, maybe, of its claim. -/
structure Definition where
  /-- The group and version of the definition itself. -/
  apiVersion : String
  /-- The kind of the definition itself. -/
  kind : String
  /-- The metadata. -/
  metadata : ObjectMeta
  /-- What the definition asks for. -/
  spec : DefinitionSpec
deriving DecidableEq

namespace Definition

/-- The group of definitions. -/
def definitionGroup : String :=
  "apiextensions.crossplane.io"

/-- The version of definitions. -/
def definitionVersion : String :=
  "v1alpha1"

/-- The group and version of definitions. -/
def definitionApiVersion : String :=
  definitionGroup ++ "/" ++ definitionVersion

/-- The kind of definitions. -/
def definitionKind : String :=
  "CompositeResourceDefinition"

/-- The document form. -/
def form {C : Type → Type} [DocumentFormat C] : C Definition :=
  record
    (.defaulted "apiVersion" text definitionApiVersion <|
      .defaulted "kind" text definitionKind <| .required "metadata" ObjectMeta.form <|
      .required "spec" DefinitionSpec.form .done)
    (fun (apiVersion, kind, metadata, spec, _) => { apiVersion, kind, metadata, spec })
    (fun d => (d.apiVersion, d.kind, d.metadata, d.spec, ()))

/-- A definition without versions and without a claim. -/
def new (name group : String) (names : ResourceNames) : Definition where
  apiVersion := definitionApiVersion
  kind := definitionKind
  metadata := { name }
  spec := { group, names }

/-- The definition with names for a claim. -/
def withClaimNames (d : Definition) (names : ResourceNames) : Definition :=
  { d with spec.claimNames := some names }

/-- The definition with one more version, behind those it has. -/
def withVersion (d : Definition) (version : DefinitionVersion) : Definition :=
  { d with spec.versions := d.spec.versions ++ [version] }

/-- The definition with a label set. -/
def withLabel (d : Definition) (key value : String) : Definition :=
  { d with metadata.labels := d.metadata.labels.insert key value }

/-- The definition with an annotation set. -/
def withAnnotation (d : Definition) (key value : String) : Definition :=
  { d with metadata.annotations := d.metadata.annotations.insert key value }

/-- The definition with an identifier. -/
def withUid (d : Definition) (uid : String) : Definition :=
  { d with metadata.uid := some uid }

/-- Whether the definition offers a claim. -/
def offersClaim (d : Definition) : Bool :=
  d.spec.claimNames.isSome

/-- The names of the claim, checked against those of the composite resource. -/
def checkedClaimNames (d : Definition) : Except ClaimNameError ResourceNames :=
  d.spec.names.checkClaim d.spec.claimNames

/-- The reference from a generated resource to the definition. It is always to the kind of
definitions, even if the definition says otherwise of itself. -/
def controllerReference (d : Definition) : OwnerReference where
  apiVersion := definitionApiVersion
  kind := definitionKind
  name := d.metadata.name
  uid := d.metadata.uid.getD ""
  controller := some true
  blockOwnerDeletion := some true

end Definition

end CompositeCrd
