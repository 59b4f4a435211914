import CompositeCrd.Command
import CompositeCrd.Crd.Generation
import CompositeCrd.Definition.Lint
import CompositeCrd.Host

/-!
# Failures

What can keep a command from doing what it is asked for, and what can be wrong with a
definition.
-/

namespace CompositeCrd

/-- Why a configuration file cannot be read. -/
inductive ConfigError where
  /-- There is no file that can be opened. -/
  | file (cause : FileError)
  /-- What is in it is no configuration. -/
  | content
deriving DecidableEq

/-- The wording of an error. -/
def ConfigError.message : ConfigError → String
  | .file cause => "I/O error: " ++ cause.message
  | .content => "YAML error: the file holds no configuration"

/-- Why a command fails. -/
inductive Failure where
  /-- A configuration cannot be read from this file. -/
  | config (path : String) (cause : ConfigError)
  /-- This file cannot be read. -/
  | unreadable (path : String) (cause : FileError)
  /-- There is no definition in this file. -/
  | noDefinition (path : String)
  /-- There is no document in this file. -/
  | noDocument (path : String)
  /-- There is no status in this file. -/
  | noStatus (path : String)
  /-- The definition of this name has issues in its versions. -/
  | versions (name : String) (issues : List VersionIssue)
  /-- A variant of the definition of this name cannot be generated. -/
  | generation (variant : Variant) (name : String) (cause : GenerateError)
  /-- A definition that was generated has no text. -/
  | unwritten
  /-- The directory for the output cannot be made. -/
  | directory (path : String) (cause : FileError)
  /-- This file cannot be written. -/
  | unwritable (path : String) (cause : FileError)
  /-- So many problems were found with the definition in this file. -/
  | problems (count : Nat) (path : String)
  /-- There is something at this path already. -/
  | present (path : String)
  /-- The configuration cannot be written to this file. -/
  | unwritableConfig (path : String) (cause : FileError)

/-- The wording of a failure. -/
def Failure.message : Failure → String
  | .config path cause => "Failed to load config '" ++ path ++ "': " ++ cause.message
  | .unreadable path cause => "Failed to read '" ++ path ++ "': " ++ cause.message
  | .noDefinition path =>
    "Failed to parse definition '" ++ path ++ "': the file holds no definition"
  | .noDocument path => "Failed to parse '" ++ path ++ "': the file holds no document"
  | .noStatus path => "Invalid status in '" ++ path ++ "': the document holds no status"
  | .versions name issues =>
    "definition '" ++ name ++ "' has invalid versions: "
      ++ "; ".intercalate (issues.map VersionIssue.message)
  | .generation variant name cause =>
    "cannot render " ++ Spelled.spell variant ++ " CRD for '" ++ name ++ "': "
      ++ cause.explanation
  | .unwritten => "a generated definition has no text"
  | .directory path cause =>
    "Failed to create output directory '" ++ path ++ "': " ++ cause.message
  | .unwritable path cause => "Failed to write '" ++ path ++ "': " ++ cause.message
  | .problems count path => toString count ++ " problem(s) found in '" ++ path ++ "'"
  | .present path => "'" ++ path ++ "' already exists (use --force to overwrite)"
  | .unwritableConfig path cause =>
    "Failed to write config '" ++ path ++ "': " ++ (ConfigError.file cause).message

/-- What can be wrong with a definition. -/
inductive Problem where
  /-- An issue in its versions. -/
  | version (issue : VersionIssue)
  /-- The names of the claim that it offers clash with those of the composite resource. -/
  | claimNames (cause : ClaimNameError)
  /-- The composite resource cannot be generated. -/
  | generation (cause : GenerateError)

/-- The wording of a problem. -/
def Problem.message : Problem → String
  | .version issue => issue.message
  | .claimNames cause => cause.message
  | .generation cause => cause.explanation

/-- All problems of a definition. Every schema is read for the composite resource, so the claim
could only have the same ones. -/
def Definition.problems (d : Definition) : List Problem :=
  d.versionIssues.map .version ++ claimNames ++ generation
where
  /-- The problem with the names of a claim, if there are some. -/
  claimNames : List Problem :=
    match d.offersClaim, d.checkedClaimNames with
    | true, .error cause => [.claimNames cause]
    | _, _ => []
  /-- The problem with the schemas. -/
  generation : List Problem :=
    match d.generate .composite with
    | .error cause => [.generation cause]
    | .ok _ => []

end CompositeCrd
