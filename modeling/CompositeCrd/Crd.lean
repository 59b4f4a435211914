import CompositeCrd.Condition
import CompositeCrd.Metadata
import CompositeCrd.Names
import CompositeCrd.Variant

/-!
# Custom resource definitions

What is submitted to the API server: for each version of a resource the full validation schema,
the printer columns, and whether it is the stored one. A custom resource definition that comes
back from the server carries a status in addition.
-/

namespace CompositeCrd

open RecordFormat DocumentFormat

/-- One version of a custom resource definition. -/
structure CrdVersion where
  /-- The name of the version. -/
  name : String
  /-- Whether the version is served. -/
  served : Bool
  /-- Whether the version is the stored one. -/
  storage : Bool
  /-- The printer columns. -/
  additionalPrinterColumns : List PrinterColumn
  /-- The validation schema. -/
  schema : Schema
  /-- Whether the status is a subresource. -/
  statusSubresource : Bool

namespace CrdVersion

/-- The JSON form of a validation schema inside a version. -/
def validationForm : Json.Codec Schema :=
  record (.required "openAPIV3Schema" Schema.codec .done) (fun (schema, _) => schema)
    (fun schema => (schema, ()))

/-- The JSON form of an object without fields. -/
def markerForm : Json.Codec Unit :=
  record .done id id

/-- The JSON form of the subresources, of which the status is the only one. -/
def subresourcesForm : Json.Codec Bool :=
  record (.optional "status" markerForm .done) (fun (status, _) => status.isSome)
    (fun status => (if status then some () else none, ()))

/-- The JSON form. -/
def form : Json.Codec CrdVersion :=
  record
    (.required "name" text <| .required "served" flag <| .required "storage" flag <|
      .listed "additionalPrinterColumns" PrinterColumn.form <|
      .required "schema" validationForm <|
      .defaulted "subresources" subresourcesForm false .done)
    (fun (name, served, storage, additionalPrinterColumns, schema, statusSubresource, _) =>
      { name, served, storage, additionalPrinterColumns, schema, statusSubresource })
    (fun v =>
      (v.name, v.served, v.storage, v.additionalPrinterColumns, v.schema, v.statusSubresource, ()))

end CrdVersion

/-- What a custom resource definition asks for. -/
structure CrdSpec where
  /-- The group of the resource. -/
  group : String
  /-- The names of the resource. -/
  names : ResourceNames
  /-- Where the instances live. -/
  scope : Scope
  /-- The versions, in order. -/
  versions : List CrdVersion

/-- The JSON form of what a custom resource definition asks for. -/
def CrdSpec.form : Json.Codec CrdSpec :=
  record
    (.required "group" text <| .required "names" ResourceNames.form <|
      .required "scope" spelled <| .required "versions" (list CrdVersion.form) .done)
    (fun (group, names, scope, versions, _) => { group, names, scope, versions })
    (fun s => (s.group, s.names, s.scope, s.versions, ()))

/-- A custom resource definition. -/
structure Crd where
  /-- The group and version of custom resource definitions. -/
  apiVersion : String
  /-- The kind of custom resource definitions. -/
  kind : String
  /-- The metadata. -/
  metadata : ObjectMeta
  /-- What is asked for. -/
  spec : CrdSpec
  /-- What the API server reports. -/
  status : Option CrdStatus := none

namespace Crd

/-- The group and version of generated definitions. -/
def generatedApiVersion : String :=
  "apiextensions.k8s.io/v1"

/-- The kind of generated definitions. -/
def generatedKind : String :=
  "CustomResourceDefinition"

/-- The JSON form. -/
def form : Json.Codec Crd :=
  record
    (.required "apiVersion" text <| .required "kind" text <|
      .required "metadata" ObjectMeta.form <| .required "spec" CrdSpec.form <|
      .optional "status" CrdStatus.form .done)
    (fun (apiVersion, kind, metadata, spec, status, _) =>
      { apiVersion, kind, metadata, spec, status })
    (fun c => (c.apiVersion, c.kind, c.metadata, c.spec, c.status, ()))

/-- The first version with a name. -/
def version? (c : Crd) (name : String) : Option CrdVersion :=
  c.spec.versions.find? (·.name == name)

/-- The first version that is marked as the stored one. -/
def storageVersion? (c : Crd) : Option CrdVersion :=
  c.spec.versions.find? (·.storage)

/-- Whether the status says that instances can be created. -/
def established (c : Crd) : Bool :=
  match c.status with
  | some status => status.established
  | none => false

end Crd

end CompositeCrd
