import CompositeCrd.Render
import CompositeCrd.Yaml.Reader

/-!
# Configuration of rendering

What is rendered, and how, can be set in a YAML file. Every key may be left out; a file without
any keys, even an empty one, stands for the default configuration.
-/

namespace CompositeCrd

open RecordFormat DocumentFormat

/-- What is rendered, and how. -/
structure Config where
  /-- The version of the configuration's own format. -/
  version : String := "1.0"
  /-- The variants to render, in order. -/
  variants : List Variant := [.composite, .claim]
  /-- The format to write. -/
  format : OutputFormat := .yaml
  /-- Whether definitions with issues in their versions are refused. -/
  strictVersions : Bool := false
deriving DecidableEq

namespace Config

/-- The document form. -/
def form {C : Type → Type} [DocumentFormat C] : C Config :=
  let default : Config := {}
  record
    (.defaulted "version" text default.version <|
      .defaulted "variants" (list spelled) default.variants <|
      .defaulted "format" spelled default.format <|
      .defaulted "strict_versions" flag default.strictVersions .done)
    (fun (version, variants, format, strictVersions, _) =>
      { version, variants, format, strictVersions })
    (fun c => (c.version, c.variants, c.format, c.strictVersions, ()))

/-- Reads a configuration file. -/
def ofText? (s : String) : Option Config :=
  Yaml.Reader.ofText? form s

/-- The JSON value of a configuration. -/
def toValue? (c : Config) : Option Json.Value :=
  Json.Codec.encode form c

/-- The configuration file of a configuration. -/
def toText? (c : Config) : Option String :=
  c.toValue?.map yamlLines

end Config

end CompositeCrd
