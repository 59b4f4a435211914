import CompositeCrd.Schema.Basic

/-!
# Laying property trees over one another

The schema of a resource is assembled in layers. A layer is a property tree that is laid over
the properties of one property of the root, `spec` or `status`. The overlay is shallow: an
entry of the layer replaces the entry of the same name altogether, and entries that the layer
does not have stay as they are.
-/

namespace CompositeCrd

/-- The table with every entry of `layer` put into it, in order. -/
def Keyed.overlay {α : Type} (m layer : Keyed α) : Keyed α :=
  layer.foldl (fun m e => Keyed.insert e.1 e.2 m) m

/-- The node with `layer` laid over the properties of its property `under`. A property that was
absent is a plain object first. -/
def Schema.overlay (target : Schema) (layer : PropertyTree) (under : String) : Schema :=
  let node := (Keyed.find? under target.properties).getD Schema.object
  target.withProperty under { node with properties := Keyed.overlay node.properties layer }

end CompositeCrd
