import CompositeCrd.Crd
import CompositeCrd.Json.Writer
import CompositeCrd.Yaml.Writer

/-!
# Rendering

Custom resource definitions are written as YAML or as JSON. In YAML, several of them are
documents of one stream, with a line of three hyphens between them. In JSON, several of them
are the items of one list object, and the members of all objects in it are sorted; a single one
is written as it is, its members in the order of their declaration.
-/

namespace CompositeCrd

/-- The formats that can be written. -/
inductive OutputFormat where
  | yaml
  | json
deriving DecidableEq, Repr

namespace OutputFormat

/-- How files in this format are called, which is also how the format is spelled. -/
def extension : OutputFormat → String
  | .yaml => "yaml"
  | .json => "json"

end OutputFormat

instance : Spelled OutputFormat where
  all := [.yaml, .json]
  spell := OutputFormat.extension

/-- A value in JSON, on lines of its own. -/
def jsonLines (v : Json.Value) : String :=
  v.pretty ++ "\n"

/-- A value in YAML. -/
def yamlLines (v : Json.Value) : String :=
  String.ofList (Yaml.document v)

/-- The object that lists values. -/
def listOf (items : List Json.Value) : Json.Value :=
  .object [("apiVersion", .string "v1"), ("kind", .string "List"), ("items", .array items)]

/-- A single definition. It cannot be written if it has no value, which no definition made by
this library lacks. -/
def Crd.render (format : OutputFormat) (crd : Crd) : Option String :=
  (Crd.form.encode crd).map fun v =>
    match format with
    | .yaml => yamlLines v
    | .json => jsonLines v

/-- Several definitions, as one stream of documents or one list. -/
def Crd.renderAll (format : OutputFormat) (crds : List Crd) : Option String :=
  match format, crds with
  | .json, _ :: _ :: _ => do
    let values ← crds.mapM Crd.form.encode
    return jsonLines (listOf values).sorted
  | format, crds => do
    let documents ← crds.mapM (Crd.render format)
    return "---\n".intercalate documents

end CompositeCrd
