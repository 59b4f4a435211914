import CompositeCrd.PrinterColumn
import CompositeCrd.Schema.Standard

/-!
# Composite resource and claim

Two kinds of resources come from one definition. The composite resource belongs to the cluster;
the claim belongs to a namespace and stands for a composite resource there. The variants differ
in their scope, their category, and what they add to the author's properties and columns.
-/

namespace CompositeCrd

/-- Where the instances of a resource live. -/
inductive Scope where
  | cluster
  | namespaced
deriving DecidableEq, Repr

instance : Spelled Scope where
  all := [.cluster, .namespaced]
  spell
    | .cluster => "Cluster"
    | .namespaced => "Namespaced"

/-- The kinds of resources that come from a definition. -/
inductive Variant where
  /-- The composite resource. -/
  | composite
  /-- The claim for a composite resource. -/
  | claim
deriving DecidableEq, Repr

namespace Variant

/-- Where the instances live. -/
def scope : Variant → Scope
  | .composite => .cluster
  | .claim => .namespaced

/-- The category that the names of the resource get, which is also how the variant is spelled. -/
def category : Variant → String
  | .composite => "composite"
  | .claim => "claim"

/-- The properties that are laid over the author's properties of the specification. -/
def specProperties : Variant → PropertyTree
  | .composite => Schema.Standard.compositeSpec
  | .claim => Schema.Standard.claimSpec

/-- The columns that follow the author's. -/
def columns : Variant → List PrinterColumn
  | .composite => [.ready, .composition, .age]
  | .claim => [.ready, .connectionSecret, .age]

end Variant

instance : Spelled Variant where
  all := [.composite, .claim]
  spell := Variant.category

end CompositeCrd
