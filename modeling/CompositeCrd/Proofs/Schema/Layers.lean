import CompositeCrd.Proofs.Schema.Overlay
import Mathlib.Data.List.Induction

/-!
# Several layers

The schema of a resource gets its layers one after the other, under properties that may differ
from layer to layer (`Schema.overlays`). What comes out is said by look-ups: an entry is that of
the last layer under its property that has one, or else the one that was there (`lastEntry`,
`Layered`). One more layer carries the conditions over (`Layered.concat`), so they hold of every
run (`layered_overlays`).

Nodes whose tables are sorted are determined by their look-ups (`Layered.unique`). So the order
of layers counts only where two of them have an entry for the same place.
-/

namespace CompositeCrd.Schema

variable {s r r' : Schema} {name k : String}

/-- A layer and the property that it is laid under. -/
structure Layer where
  /-- The name of the property. -/
  place : String
  /-- The entries. -/
  entries : PropertyTree
  sorted : Keyed.Sorted entries

variable {l l' : Layer} {layers layers' others front rest : List Layer}

/-- The entry that a layer has for `k` under `name`. -/
def Layer.find? (l : Layer) (name k : String) : Option Schema :=
  if l.place = name then Keyed.find? k l.entries else none

/-- Two layers are apart when they lie under different properties or have no key in common. -/
def Layer.Apart (l l' : Layer) : Prop :=
  l.place ≠ l'.place ∨ (Keyed.keys l.entries).Disjoint (Keyed.keys l'.entries)

/-- The node with the layers laid over it, in order. -/
def overlays (s : Schema) (layers : List Layer) : Schema :=
  layers.foldl (fun s l => s.overlay l.entries l.place) s

/-- The entry for `k` in the last layer under `name` that has one. -/
def lastEntry (layers : List Layer) (name k : String) : Option Schema :=
  layers.reverse.findSome? (·.find? name k)

/-- The entry for `k` in the properties of the property `name`. -/
def entryAt (s : Schema) (name k : String) : Option Schema :=
  (Keyed.find? name s.properties).bind fun node => Keyed.find? k node.properties

/-- `r` is the node `s` with the layers over it. -/
structure Layered (s : Schema) (layers : List Layer) (r : Schema) : Prop where
  /-- An entry is that of the last layer that has one, or else the one that was there. -/
  entry : ∀ name k, r.entryAt name k = (lastEntry layers name k).or (s.entryAt name k)
  /-- There are the properties that were there and those that something was laid under. -/
  present : ∀ name, (Keyed.find? name r.properties).isSome
    ↔ (Keyed.find? name s.properties).isSome ∨ ∃ l ∈ layers, l.place = name
  /-- A property is what it was, or a plain object, in all but its properties. -/
  node : ∀ name node, Keyed.find? name r.properties = some node →
    node = { s.under name with properties := node.properties }
  /-- A property is what it was where nothing was laid under it. -/
  elsewhere : ∀ name, (∀ l ∈ layers, l.place ≠ name) →
    Keyed.find? name r.properties = Keyed.find? name s.properties
  /-- The node is what it was in all but its properties. -/
  frame : r = { s with properties := r.properties }

/-! ### One more layer -/

/-- The last layer is laid over what the others have made. -/
theorem overlays_concat :
    s.overlays (layers ++ [l]) = (s.overlays layers).overlay l.entries l.place :=
  List.foldl_concat ..

/-- The last layer has the last word. -/
theorem lastEntry_concat :
    lastEntry (layers ++ [l]) name k = (l.find? name k).or (lastEntry layers name k) := by
  rw [lastEntry, List.reverse_concat, List.findSome?_cons]
  cases l.find? name k <;> rfl

/-- A property that is not there is like one without properties. -/
theorem find?_under_properties : Keyed.find? k (s.under name).properties = s.entryAt name k := by
  rw [under, entryAt]
  cases Keyed.find? name s.properties <;> rfl

/-- One layer hides the entries that it has and no others. -/
theorem entryAt_overlay :
    (s.overlay l.entries l.place).entryAt name k = (l.find? name k).or (s.entryAt name k) := by
  rw [entryAt, find?_overlay_properties, Layer.find?]
  split
  · next hplace =>
    rw [Option.bind_some, Keyed.find?_overlay l.sorted.nodup, hplace, find?_under_properties]
  · rfl

/-- Without layers nothing changes. -/
theorem Layered.nil : Layered s [] s where
  entry _ _ := rfl
  present _ := by simp
  node name node h := by
    rw [under, h]
    cases node
    rfl
  elsewhere _ _ := rfl
  frame := by
    cases s
    rfl

/-- A node under a property is the one that was there, in all but its properties, whether or not
it had to be created. -/
theorem Layered.under_eq (h : Layered s layers r) (name : String) :
    r.under name = { s.under name with properties := (r.under name).properties } := by
  -- The property is there with its node, or it was never there.
  cases hfind : Keyed.find? name r.properties with
  | some node =>
    rw [show r.under name = node by rw [under, hfind]; rfl]
    exact h.node name node hfind
  | none =>
    have hnone : Keyed.find? name s.properties = none := by
      by_contra hsome
      have := (h.present name).mpr (.inl (Option.isSome_iff_ne_none.mpr hsome))
      rw [hfind] at this
      exact absurd this (by simp)
    rw [under, under, hfind, hnone]
    rfl

/-- **One more layer** over a node with layers over it. -/
theorem Layered.concat (h : Layered s layers r) :
    Layered s (layers ++ [l]) (r.overlay l.entries l.place) where
  -- What a layer finds comes first, then what was found below it.
  entry name k := by
    rw [entryAt_overlay, h.entry, lastEntry_concat, Option.or_assoc]
  present name := by
    rw [find?_overlay_properties]
    split
    · next hplace => simp [hplace]
    · next hplace => simp [h.present name, hplace]
  node name node hnode := by
    rw [find?_overlay_properties] at hnode
    split at hnode
    · next hplace =>
      obtain rfl := Option.some.inj hnode
      rw [hplace, h.under_eq name]
    · exact h.node name node hnode
  elsewhere name hnone := by
    rw [List.forall_mem_append, List.forall_mem_singleton] at hnone
    rw [find?_overlay_properties, if_neg hnone.2]
    exact h.elsewhere name hnone.1
  frame := by
    rw [overlay_eq, h.frame]

/-- Layers laid one after the other, by induction on the last. -/
theorem layered_overlays : Layered s layers (s.overlays layers) := by
  induction layers using List.reverseRecOn with
  | nil => exact .nil
  | append_singleton layers l ih => rw [overlays_concat]; exact ih.concat

/-! ### The order of layers -/

/-- The tables that layers are laid over are sorted: the properties of the node, and those of
each of them. -/
structure Tabled (s : Schema) : Prop where
  properties : Keyed.Sorted s.properties
  below : ∀ e ∈ s.properties, Keyed.Sorted e.2.properties

/-- The tables below a sorted one are sorted. -/
theorem Tabled.under (h : s.Tabled) (name : String) : Keyed.Sorted (s.under name).properties := by
  rw [Schema.under]
  cases hfind : Keyed.find? name s.properties with
  | none => exact Keyed.sorted_nil
  | some node => exact h.below _ (Keyed.mem_of_find? hfind)

/-- A layer keeps the tables sorted. -/
theorem Tabled.overlay (h : s.Tabled) : (s.overlay l.entries l.place).Tabled where
  properties := sorted_overlay_properties h.properties
  below e he := by
    rcases Keyed.mem_insert he with rfl | he
    · exact (h.under l.place).overlay
    · exact h.below e he

/-- Any number of layers does. -/
theorem Tabled.overlays (h : s.Tabled) : (s.overlays layers).Tabled := by
  induction layers using List.reverseRecOn with
  | nil => exact h
  | append_singleton layers l ih => rw [overlays_concat]; exact ih.overlay

/-- **The conditions leave one node**, if its tables are sorted. -/
theorem Layered.unique (h : Layered s layers r) (h' : Layered s layers r') (hr : r.Tabled)
    (hr' : r'.Tabled) : r = r' := by
  have hfind (name : String) :
      Keyed.find? name r.properties = Keyed.find? name r'.properties := by
    have hpresent := (h.present name).trans (h'.present name).symm
    cases hnode : Keyed.find? name r.properties with
    | none => cases hnode' : Keyed.find? name r'.properties <;> simp_all
    | some node =>
      cases hnode' : Keyed.find? name r'.properties with
      | none => simp_all
      | some node' =>
        -- Both nodes are the one that was there with tables that find the same.
        have hproperties : node.properties = node'.properties := by
          refine (hr.below _ (Keyed.mem_of_find? hnode)).ext
            (hr'.below _ (Keyed.mem_of_find? hnode')) fun k => ?_
          have hentry := (h.entry name k).trans (h'.entry name k).symm
          rwa [entryAt, entryAt, hnode, hnode'] at hentry
        rw [h.node name node hnode, h'.node name node' hnode', hproperties]
  rw [h.frame, h'.frame, hr.properties.ext hr'.properties hfind]

/-- Layers with the same last entries under the same properties do the same. -/
theorem Layered.congr (h : Layered s layers r)
    (hplaces : ∀ name, (∃ l ∈ layers', l.place = name) ↔ ∃ l ∈ layers, l.place = name)
    (hentries : ∀ name k, lastEntry layers' name k = lastEntry layers name k) :
    Layered s layers' r where
  entry name k := by rw [hentries, h.entry]
  present name := by rw [hplaces, h.present]
  node := h.node
  -- The places are the same, so what lies under none of them is too.
  elsewhere name hnone := by
    refine h.elsewhere name fun l hl heq => ?_
    obtain ⟨l', hl', heq'⟩ := (hplaces name).mpr ⟨l, hl, heq⟩
    exact hnone l' hl' heq'
  frame := h.frame

/-- Two series of layers with the same places and the same last entries make the same schema. -/
theorem overlays_congr (hs : s.Tabled)
    (hplaces : ∀ name, (∃ l ∈ layers', l.place = name) ↔ ∃ l ∈ layers, l.place = name)
    (hentries : ∀ name k, lastEntry layers' name k = lastEntry layers name k) :
    s.overlays layers' = s.overlays layers :=
  layered_overlays.unique (layered_overlays.congr hplaces hentries) hs.overlays hs.overlays

/-- The layers behind have the last word over those in front. -/
theorem lastEntry_append :
    lastEntry (front ++ rest) name k = (lastEntry rest name k).or (lastEntry front name k) := by
  rw [lastEntry, List.reverse_append, List.findSome?_append, lastEntry, lastEntry]

/-- There is no last entry when no layer has one. -/
theorem lastEntry_eq_none_iff :
    lastEntry layers name k = none ↔ ∀ l ∈ layers, l.find? name k = none := by
  rw [lastEntry, List.findSome?_eq_none_iff]
  simp only [List.mem_reverse]

/-- Layers that are apart do not both have an entry for one place. -/
theorem Layer.Apart.find?_eq_none (h : l.Apart l') (name k : String) :
    l.find? name k = none ∨ l'.find? name k = none := by
  by_contra hboth
  obtain ⟨hl, hl'⟩ := not_or.mp hboth
  rw [Layer.find?, ite_eq_right_iff, Classical.not_imp, Keyed.find?_eq_none_iff, not_not] at hl hl'
  rcases h with hplace | hkeys
  · exact hplace (hl.1.trans hl'.1.symm)
  · exact hkeys hl.2 hl'.2

/-- A layer may be laid again as long as the layers since then are apart from it. -/
theorem overlays_again (hs : s.Tabled) (h : ∀ l' ∈ others, l.Apart l') :
    s.overlays (front ++ l :: others ++ [l]) = s.overlays (front ++ l :: others) := by
  refine overlays_congr hs (fun name => ?_) fun name k => ?_
  · simp only [List.mem_append, List.mem_cons, List.not_mem_nil, or_false]
    grind
  · rw [lastEntry_concat]
    cases hfind : l.find? name k with
    | none => rfl
    | some node =>
      -- What the layer has, the layers behind it do not have.
      have hothers : lastEntry others name k = none :=
        lastEntry_eq_none_iff.mpr fun l' hl' =>
          ((h l' hl').find?_eq_none name k).resolve_left (by simp [hfind])
      rw [List.append_cons, lastEntry_append, hothers, lastEntry_concat, hfind]
      rfl

/-- Two layers that are apart may change places. -/
theorem overlays_swap (hs : s.Tabled) (h : l.Apart l') :
    s.overlays (front ++ l' :: l :: rest) = s.overlays (front ++ l :: l' :: rest) := by
  refine overlays_congr hs (fun name => ?_) fun name k => ?_
  · simp only [List.mem_append, List.mem_cons]
    grind
  · -- Of two layers the second is asked first; one of them has no answer.
    have hpair (first second : Layer) : lastEntry [first, second] name k
        = (second.find? name k).or (first.find? name k) := by
      rw [lastEntry, List.reverse_cons, List.reverse_singleton, List.singleton_append,
        List.findSome?_cons, List.findSome?_singleton]
      cases second.find? name k <;> rfl
    have hswap : lastEntry [l', l] name k = lastEntry [l, l'] name k := by
      rw [hpair, hpair]
      rcases h.find?_eq_none name k with hnone | hnone <;>
        rw [hnone, Option.none_or, Option.or_none]
    have hsplit (first second : Layer) :
        front ++ first :: second :: rest = front ++ ([first, second] ++ rest) := rfl
    rw [hsplit, hsplit, lastEntry_append, lastEntry_append, hswap, ← lastEntry_append,
      ← lastEntry_append]

/-! ### What layers do -/

/-- A property is a plain object where it was not there and all the layers under it are empty. -/
theorem Layered.created (h : Layered s layers r) (hnone : Keyed.find? name s.properties = none)
    (hsome : ∃ l ∈ layers, l.place = name)
    (hempty : ∀ l ∈ layers, l.place = name → l.entries = []) :
    Keyed.find? name r.properties = some object := by
  obtain ⟨node, hnode⟩ := Option.isSome_iff_exists.mp ((h.present name).mpr (.inr hsome))
  -- There are no entries: none was there, and no layer has one.
  have hentry (k : String) : Keyed.find? k node.properties = none := by
    have hlast : lastEntry layers name k = none :=
      lastEntry_eq_none_iff.mpr fun l hl => by
        rw [Layer.find?, ite_eq_right_iff]
        exact fun hplace => by rw [hempty l hl hplace, Keyed.find?_nil]
    have hk := h.entry name k
    rwa [entryAt, hnode, hlast, entryAt, hnone] at hk
  have hproperties : node.properties = [] := by
    cases hlist : node.properties with
    | nil => rfl
    | cons e rest => exact absurd (hentry e.1) (by simp [hlist, Keyed.find?])
  rw [hnode, h.node name node hnode, hproperties, under, hnone]
  rfl

/-- **What a sequence of layers does to a node.** It changes entries below the properties that
layers lie under, and an entry is that of the last layer that has one (`Layered`). Properties
that are missing are created, as plain objects. Nothing is taken away. A layer may be laid again
at once, or behind layers that are apart from it, and neighbours that are apart may change
places. -/
theorem overlays_layered (hs : s.Tabled) (layers : List Layer) :
    Layered s layers (s.overlays layers)
      ∧ (∀ name, Keyed.find? name s.properties = none → (∃ l ∈ layers, l.place = name) →
          (∀ l ∈ layers, l.place = name → l.entries = []) →
          Keyed.find? name (s.overlays layers).properties = some object)
      ∧ (∀ name, (Keyed.find? name s.properties).isSome →
          (Keyed.find? name (s.overlays layers).properties).isSome)
      ∧ (∀ name k, (s.entryAt name k).isSome → ((s.overlays layers).entryAt name k).isSome)
      ∧ (∀ front l others, layers = front ++ l :: others → (∀ l' ∈ others, l.Apart l') →
          s.overlays (layers ++ [l]) = s.overlays layers)
      ∧ ∀ front l l' rest, layers = front ++ l :: l' :: rest → l.Apart l' →
          s.overlays (front ++ l' :: l :: rest) = s.overlays layers := by
  -- All of this is read off the description of the result.
  have hlayered : Layered s layers (s.overlays layers) := layered_overlays
  refine ⟨hlayered, fun name => hlayered.created, fun name h => ?_, fun name k h => ?_, ?_, ?_⟩
  · exact (hlayered.present name).mpr (.inl h)
  · rw [hlayered.entry, Option.isSome_or, h, Bool.or_true]
  · rintro front l others rfl hapart
    exact overlays_again hs hapart
  · rintro front l l' rest rfl hapart
    exact overlays_swap hs hapart

/-- A node with one property, whose size is a text, and a description of it. -/
def wanted : Schema :=
  object.withProperty "spec"
    { object with description := some "What is wanted.", properties := [("size", string)] }

/-- A layer that adds a colour and makes the size a number. -/
def sizeLayer : Layer :=
  ⟨"spec", [("color", string), ("size", typed "integer")], by decide⟩

/-- A layer that makes the colour a number. -/
def colorLayer : Layer :=
  ⟨"spec", [("color", typed "integer")], by decide⟩

/-- A layer without entries. -/
def emptyLayer : Layer :=
  ⟨"status", [], by decide⟩

/-- Three layers over one schema: each entry is where its layer puts it, a place without entries is
a plain object, and the two layers that are apart may change places. -/
theorem wanted_layered :
    (wanted.overlays [sizeLayer, emptyLayer, colorLayer]).entryAt "spec" "size"
        = some (typed "integer")
      ∧ (wanted.overlays [sizeLayer, emptyLayer, colorLayer]).entryAt "spec" "color"
        = some (typed "integer")
      ∧ Keyed.find? "status" (wanted.overlays [sizeLayer, emptyLayer, colorLayer]).properties
        = some object
      ∧ ((wanted.overlays [sizeLayer, emptyLayer, colorLayer]).under "spec").description
        = some "What is wanted."
      ∧ wanted.overlays [sizeLayer, colorLayer, emptyLayer]
        = wanted.overlays [sizeLayer, emptyLayer, colorLayer] := by
  have htabled : wanted.Tabled := ⟨by decide, by decide⟩
  obtain ⟨hlayered, hcreated, _, _, _, hswap⟩ :=
    overlays_layered htabled [sizeLayer, emptyLayer, colorLayer]
  -- The entries are those of the two layers, the last two of which are apart.
  refine ⟨?_, ?_, ?_, ?_, hswap [sizeLayer] _ _ [] rfl (.inl (by decide))⟩
  · rw [hlayered.entry]
    rfl
  · rw [hlayered.entry]
    rfl
  · exact hcreated "status" rfl ⟨_, .tail _ (.head _), rfl⟩ (by decide)
  · rw [hlayered.under_eq]
    rfl

end CompositeCrd.Schema
