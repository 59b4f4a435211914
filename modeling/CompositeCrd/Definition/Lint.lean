import CompositeCrd.Definition
import CompositeCrd.Text.Blank

/-!
# Lint for versions

Resources are generated from a definition whatever its versions are called and whichever of
them are referenceable, but the API server rejects the result unless the names are there and
unique and exactly one version is referenceable. `Definition.versionIssues` finds these faults
beforehand. Names are compared without the white space around them.
-/

namespace CompositeCrd

/-- A fault in the versions of a definition. -/
inductive VersionIssue where
  /-- There are no versions. -/
  | noVersions
  /-- A name is blank. -/
  | blankName
  /-- A name, given without the white space around it, was used by an earlier version. -/
  | duplicate (name : String)
  /-- No version is referenceable. -/
  | noneReferenceable
  /-- Several versions are referenceable, and these are their names. -/
  | manyReferenceable (names : List String)
deriving DecidableEq

/-- The wording of an issue. -/
def VersionIssue.message : VersionIssue → String
  | .noVersions => "definition declares no versions"
  | .blankName => "version name cannot be empty"
  | .duplicate name => "duplicate version: " ++ name
  | .noneReferenceable => "no version is marked referenceable"
  | .manyReferenceable names =>
    "multiple referenceable versions: " ++ ", ".intercalate names

/-- The issues with names, in order, when versions with the names `seen` come first. -/
def nameIssues (seen : List String) : List String → List VersionIssue
  | [] => []
  | name :: names =>
    let trimmed := Text.trim name
    if trimmed.isEmpty then .blankName :: nameIssues seen names
    else if trimmed ∈ seen then .duplicate trimmed :: nameIssues seen names
    else nameIssues (trimmed :: seen) names

/-- The issue with the number of referenceable versions, given their names. -/
def countIssues : List String → List VersionIssue
  | [] => [.noneReferenceable]
  | [_] => []
  | names => [.manyReferenceable names]

/-- All issues: those with names in the order of the versions, and then at most one with the
number of referenceable versions. -/
def Definition.versionIssues (d : Definition) : List VersionIssue :=
  match d.spec.versions with
  | [] => [.noVersions]
  | versions =>
    nameIssues [] (versions.map (·.name))
      ++ countIssues ((versions.filter (·.referenceable)).map (·.name))

end CompositeCrd
