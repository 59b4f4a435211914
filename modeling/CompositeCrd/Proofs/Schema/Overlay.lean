import CompositeCrd.Proofs.Keyed
import CompositeCrd.Schema.Overlay

/-!
# What an overlay does to look-ups

Laying a layer over the properties of a property changes the node in one place, that
property, and there it changes the properties only (`find?_overlay_properties`). The rest of the
node stays (`overlay_eq`).
-/

namespace CompositeCrd.Schema

variable {s : Schema} {layer : PropertyTree} {name k : String}

/-- The node under a property, or a plain object where there is none. -/
def under (s : Schema) (name : String) : Schema :=
  (Keyed.find? name s.properties).getD object

/-- An overlay changes the properties only. -/
theorem overlay_eq (s : Schema) (layer : PropertyTree) (name : String) :
    s.overlay layer name = { s with properties := (s.overlay layer name).properties } :=
  rfl

/-- **An overlay changes the properties of one property**, and keeps the rest. -/
theorem find?_overlay_properties : Keyed.find? k (s.overlay layer name).properties
    = if name = k then
        some { s.under name with properties := Keyed.overlay (s.under name).properties layer }
      else Keyed.find? k s.properties :=
  Keyed.find?_insert

theorem under_overlay : (s.overlay layer name).under name
    = { s.under name with properties := Keyed.overlay (s.under name).properties layer } := by
  rw [under, find?_overlay_properties, if_pos rfl]
  rfl

theorem under_overlay_of_ne (h : name ≠ k) : (s.overlay layer name).under k = s.under k := by
  rw [under, find?_overlay_properties, if_neg h]
  rfl

theorem sorted_overlay_properties (hs : Keyed.Sorted s.properties) :
    Keyed.Sorted (s.overlay layer name).properties :=
  hs.insert

/-- An overlay under a property that is there keeps the keys. -/
theorem keys_overlay_properties (hs : Keyed.Sorted s.properties)
    (h : name ∈ Keyed.keys s.properties) :
    Keyed.keys (s.overlay layer name).properties = Keyed.keys s.properties :=
  hs.keys_insert_of_mem h

end CompositeCrd.Schema
