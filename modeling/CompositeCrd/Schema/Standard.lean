import CompositeCrd.Schema.Basic

/-!
# Standard properties

The properties that every generated schema has besides those of its author: the envelope of an
object, the part of the specification that connects a composite resource or a claim to its
composition, and the status that the controllers report.
-/

namespace CompositeCrd.Schema

/-- An object whose properties, with the given names, are strings. -/
def strings (names : List String) : Schema :=
  names.foldl (fun node name => node.withProperty name string) object

/-- A point in time. -/
def dateTime : Schema :=
  string.withFormat "date-time"

namespace Standard

/-- The envelope of an object. What `metadata` holds is checked by the API server itself. -/
def base : PropertyTree :=
  Keyed.ofList
    [("apiVersion", string), ("kind", string), ("metadata", object), ("spec", object),
      ("status", object)]

/-- The composition that was selected. -/
def compositionRef : Schema :=
  (strings ["name"]).withRequired ["name"]

/-- How a composition is to be selected. -/
def compositionSelector : Schema :=
  (object.withProperty "matchLabels" (object.withAdditional string)).withRequired ["matchLabels"]

/-- The specification of a composite resource. -/
def compositeSpec : PropertyTree :=
  Keyed.ofList
    [("compositionRef", compositionRef),
      ("compositionSelector", compositionSelector),
      ("claimRef",
        (strings ["apiVersion", "kind", "namespace", "name"]).withRequired
          ["apiVersion", "kind", "namespace", "name"]),
      ("resourceRefs",
        array ((strings ["apiVersion", "name", "kind", "uid"]).withRequired
          ["apiVersion", "kind", "name"])),
      ("writeConnectionSecretToRef",
        (strings ["name", "namespace"]).withRequired ["name", "namespace"])]

/-- The specification of a claim. -/
def claimSpec : PropertyTree :=
  Keyed.ofList
    [("compositionRef", compositionRef),
      ("compositionSelector", compositionSelector),
      ("resourceRef",
        (strings ["apiVersion", "kind", "name"]).withRequired ["apiVersion", "kind", "name"]),
      ("writeConnectionSecretToRef", (strings ["name"]).withRequired ["name"])]

/-- One condition of a resource. -/
def condition : Schema :=
  ((((object.withProperty "lastTransitionTime" dateTime).withProperty "message" string)
    |>.withProperty "reason" string).withProperty "status" string).withProperty "type" string
    |>.withRequired ["lastTransitionTime", "reason", "status", "type"]

/-- The status of a composite resource or a claim. -/
def status : PropertyTree :=
  Keyed.ofList
    [("conditions", (array condition).withDescription "Conditions of the resource."),
      ("connectionDetails", object.withProperty "lastPublishedTime" dateTime)]

end Standard

end CompositeCrd.Schema
