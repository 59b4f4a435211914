import CompositeCrd.Render

/-!
# Commands

What a user can ask for: to render the custom resource definitions of a definition, to check a
definition without rendering it, to tell whether a custom resource definition is established,
and to write a configuration file to start from.
-/

namespace CompositeCrd

/-- What is asked of a rendering. -/
structure RenderRequest where
  /-- The file with the definition. -/
  input : String
  /-- The configuration file. -/
  config : Option String := none
  /-- The variants to render; if there are none, those that are configured. -/
  variants : List Variant := []
  /-- The format to write, if not the one that is configured. -/
  format : Option OutputFormat := none
  /-- The directory for one file per variant; without it everything is printed. -/
  output : Option String := none
  /-- Whether to refuse a definition with issues in its versions. -/
  strict : Bool := false
deriving DecidableEq

/-- What is asked for. -/
inductive Command where
  /-- To render a definition. -/
  | render (request : RenderRequest)
  /-- To check the definition in a file. -/
  | validate (input : String)
  /-- To tell whether what is in a file is established. -/
  | established (input : String)
  /-- To write the default configuration to a file, also over one that is there if `force`. -/
  | initConfig (output : String) (force : Bool)
deriving DecidableEq

/-- A command as it is given. -/
structure Invocation where
  /-- What is asked for. -/
  command : Command
  /-- Whether to report what goes on. -/
  verbose : Bool := false
deriving DecidableEq

end CompositeCrd
