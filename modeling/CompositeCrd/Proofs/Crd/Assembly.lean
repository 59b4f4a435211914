import CompositeCrd.Proofs.Crd.Generation
import CompositeCrd.Proofs.Schema.Overlay

/-!
# The schema of a generated version

`Assembled variant authored s` spells out what the schema of a version is: an envelope with five
properties, of which `spec` is the author's under the variant's standard properties and the
others are fixed. The description leaves nothing open (`Assembled.unique`), so equal
contributions of the authors give equal schemas whatever else their documents contain.

Generation puts the layers over one another; `assemble_assembled` compares the result with the
description look-up by look-up, and `generate_assembled` carries it to every version of every
definition.
-/

namespace CompositeCrd

open Schema

variable {variant : Variant} {authored : PropertyTree} {s s' : Schema} {k : String}

/-- **What the schema of a version is**, given the properties that its author contributes. -/
structure Assembled (variant : Variant) (authored : PropertyTree) (s : Schema) : Prop where
  /-- The root is an object with properties and nothing else. -/
  root : s = { object with properties := s.properties }
  keys : Keyed.keys s.properties = ["apiVersion", "kind", "metadata", "spec", "status"]
  /-- The envelope is that of every object. -/
  envelope : ∀ k ∈ ["apiVersion", "kind", "metadata"],
    Keyed.find? k s.properties = Keyed.find? k Standard.base
  /-- Under `spec` is a plain object, where the standard properties win over the author's. -/
  spec : ∃ properties, Keyed.find? "spec" s.properties = some { object with properties }
    ∧ Keyed.Sorted properties
    ∧ ∀ k, Keyed.find? k properties
        = (Keyed.find? k variant.specProperties).or (Keyed.find? k authored)
  /-- Under `status` is a plain object with the standard properties. -/
  status : Keyed.find? "status" s.properties
    = some { object with properties := Standard.status }

theorem sorted_base : Keyed.Sorted Standard.base :=
  Keyed.sorted_ofList _

theorem keys_base :
    Keyed.keys Standard.base = ["apiVersion", "kind", "metadata", "spec", "status"] := by
  decide

/-- The description determines the schema. -/
theorem Assembled.unique (h : Assembled variant authored s) (h' : Assembled variant authored s') :
    s = s' := by
  obtain ⟨p, hspec, hsorted, hp⟩ := h.spec
  obtain ⟨p', hspec', hsorted', hp'⟩ := h'.spec
  have hproperties : p = p' := hsorted.ext hsorted' fun k => (hp k).trans (hp' k).symm
  have heq : s.properties = s'.properties := by
    have hbase := Keyed.sorted_iff_keys.mp sorted_base
    rw [keys_base] at hbase
    have hs : Keyed.Sorted s.properties := Keyed.sorted_iff_keys.mpr (h.keys ▸ hbase)
    have hs' : Keyed.Sorted s'.properties := Keyed.sorted_iff_keys.mpr (h'.keys ▸ hbase)
    -- The five properties agree, and there are no others.
    refine hs.ext hs' fun k => ?_
    by_cases hk : k ∈ ["apiVersion", "kind", "metadata", "spec", "status"]
    · simp only [List.mem_cons, List.not_mem_nil, or_false] at hk
      rcases hk with rfl | rfl | rfl | rfl | rfl
      · rw [h.envelope _ (by simp), h'.envelope _ (by simp)]
      · rw [h.envelope _ (by simp), h'.envelope _ (by simp)]
      · rw [h.envelope _ (by simp), h'.envelope _ (by simp)]
      · rw [hspec, hspec', hproperties]
      · rw [h.status, h'.status]
    · rw [Keyed.find?_eq_none_iff.mpr (by rwa [h.keys]),
        Keyed.find?_eq_none_iff.mpr (by rwa [h'.keys])]
  rw [h.root, h'.root, heq]

/-! ### Layer by layer -/

theorem sorted_specProperties (variant : Variant) : Keyed.Sorted variant.specProperties := by
  cases variant <;> exact Keyed.sorted_ofList _

/-- **The layers come out as described.** -/
theorem assemble_assembled (variant : Variant) (h : Keyed.Sorted authored) :
    Assembled variant authored (assemble variant authored) := by
  -- The four stages of the assembly.
  let base : Schema := { object with properties := Standard.base }
  let withAuthored := base.overlay authored "spec"
  let withSpec := withAuthored.overlay variant.specProperties "spec"
  have hassemble : assemble variant authored = withSpec.overlay Standard.status "status" := rfl
  have hbase : Keyed.Sorted base.properties := sorted_base
  have hauthored : Keyed.Sorted withAuthored.properties := sorted_overlay_properties hbase
  have hspec : Keyed.Sorted withSpec.properties := sorted_overlay_properties hauthored
  -- Layers are laid under properties that are there, so no key is added.
  have hkeys : Keyed.keys withSpec.properties
      = ["apiVersion", "kind", "metadata", "spec", "status"] := by
    have hfirst : Keyed.keys withAuthored.properties = Keyed.keys Standard.base :=
      keys_overlay_properties hbase (by decide)
    rw [keys_overlay_properties hauthored (by rw [hfirst]; decide), hfirst, keys_base]
  refine ⟨rfl, ?_, fun k hk => ?_, ?_, ?_⟩
  · rw [hassemble, keys_overlay_properties hspec (by rw [hkeys]; decide), hkeys]
  · -- No layer is laid under these properties.
    have hne : "status" ≠ k ∧ "spec" ≠ k := by
      simp only [List.mem_cons, List.not_mem_nil, or_false] at hk
      rcases hk with rfl | rfl | rfl <;> exact ⟨by decide, by decide⟩
    rw [hassemble, find?_overlay_properties, if_neg hne.1, find?_overlay_properties, if_neg hne.2,
      find?_overlay_properties, if_neg hne.2]
  · -- Two layers are laid under the specification, which is a plain object before.
    have hplain : base.under "spec" = object := rfl
    have hunder : withAuthored.under "spec"
        = { object with properties := Keyed.overlay [] authored } := by
      rw [under_overlay, hplain]
      rfl
    refine ⟨Keyed.overlay (Keyed.overlay [] authored) variant.specProperties, ?_,
      Keyed.sorted_nil.overlay.overlay, fun k => ?_⟩
    · rw [hassemble, find?_overlay_properties, if_neg (by decide), find?_overlay_properties,
        if_pos rfl, hunder]
    · rw [Keyed.find?_overlay (sorted_specProperties variant).nodup, h.overlay_nil]
  · -- One layer is laid under the status, which is a plain object before.
    have hunder : withSpec.under "status" = object := by
      rw [under_overlay_of_ne (by decide), under_overlay_of_ne (by decide)]
      rfl
    have hstatus : Keyed.Sorted Standard.status := Keyed.sorted_ofList _
    rw [hassemble, find?_overlay_properties, if_pos rfl, hunder]
    change some { object with properties := Keyed.overlay [] Standard.status } = _
    rw [hstatus.overlay_nil]

/-! ### Every version of every definition -/

/-- A version that is generated has an assembled schema. -/
theorem version_assembled {v : DefinitionVersion} {w : CrdVersion}
    (h : v.generate variant = .ok w) :
    ∃ authored, specProperties v.schema = .ok authored ∧ Assembled variant authored w.schema := by
  obtain ⟨authored, hauthored, rfl⟩ := generateVersion_eq_ok_iff.mp h
  exact ⟨authored, hauthored, assemble_assembled variant (specProperties_regular hauthored).1⟩

/-- **Every generated version has the schema that is described**, at its position. Two versions
to which the authors contribute the same properties have the same schema, whatever else their
documents contain. -/
theorem generate_assembled {d : Definition} {crd : Crd} (h : d.generate variant = .ok crd) :
    crd.spec.versions.length = d.spec.versions.length
      ∧ (∀ (i : Nat) v w, d.spec.versions[i]? = some v → crd.spec.versions[i]? = some w →
          ∃ authored, specProperties v.schema = .ok authored
            ∧ Assembled variant authored w.schema)
      ∧ ∀ (d' : Definition) crd', d'.generate variant = .ok crd' →
          ∀ (i j : Nat) v v' w w', d.spec.versions[i]? = some v → crd.spec.versions[i]? = some w →
            d'.spec.versions[j]? = some v' → crd'.spec.versions[j]? = some w' →
            ∀ raw raw' s s', v.schema = some raw → v'.schema = some raw' →
              raw.node? = .ok s → raw'.node? = .ok s' →
              authoredProperties s = authoredProperties s' → w.schema = w'.schema := by
  obtain ⟨name, names, versions, -, hversions, rfl⟩ := generate_eq_ok_iff.mp h
  refine ⟨hversions.length_eq.symm, fun i v w hv hw => ?_, ?_⟩
  · exact version_assembled (forall₂_getElem? hversions hv hw)
  · intro d' crd' h' i j v v' w w' hv hw hv' hw' raw raw' s s' hraw hraw' hs hs' heq
    obtain ⟨name', names', versions', -, hversions', rfl⟩ := generate_eq_ok_iff.mp h'
    obtain ⟨p, hp, hassembled⟩ := version_assembled (forall₂_getElem? hversions hv hw)
    obtain ⟨p', hp', hassembled'⟩ := version_assembled (forall₂_getElem? hversions' hv' hw')
    -- Both contributions are the properties that the nodes declare.
    rw [hraw, specProperties_some, hs] at hp
    rw [hraw', specProperties_some, hs'] at hp'
    obtain rfl : authoredProperties s = p := Except.ok.inj hp
    obtain rfl : authoredProperties s' = p' := Except.ok.inj hp'
    rw [← heq] at hassembled'
    exact hassembled.unique hassembled'

/-- A node that gives `spec` a size, and nothing else. -/
def sized : Schema :=
  object.withProperty "spec" (object.withProperty "size" string)

/-- A node that gives `spec` the same size, and tries for the status and the root. -/
def greedy : Schema :=
  ((array string).withProperty "spec" ((object.withProperty "size" string).withRequired ["size"])
    |>.withProperty "status" (object.withProperty "conditions" string)).withRequired ["spec"]

/-- A definition with both, one for each version. -/
def twoSizes : Definition :=
  (Definition.new "sizes.example.org" "example.org" { kind := "Size", plural := "sizes" }
    |>.withVersion { name := "v1", schema := some (.ofText sized.compact) }).withVersion
      { name := "v2", schema := some (.ofText greedy.compact) }

/-- Two versions whose schemas author the same properties, the one with a lot besides, have one
schema. -/
theorem twoSizes_assembled :
    ∃ crd w w', twoSizes.generate .composite = .ok crd ∧ crd.spec.versions = [w, w']
      ∧ Assembled .composite [("size", string)] w.schema ∧ w.schema = w'.schema := by
  have hsize := regular_object.withProperty regular_string "size"
  have hsized : Regular sized := regular_object.withProperty hsize "spec"
  have hgreedy : Regular greedy :=
    ((regular_string.array.withProperty (hsize.withRequired _) _).withProperty
      (regular_object.withProperty regular_string _) _).withRequired _
  -- Both raw schemas are read back, and author the same.
  have hs := node?_ofText_compact hsized (by decide)
  have hs' := node?_ofText_compact hgreedy (by decide)
  have hprops : specProperties (some (.ofText sized.compact)) = .ok [("size", string)] := by
    rw [specProperties_some, hs]
    rfl
  have hprops' : specProperties (some (.ofText greedy.compact)) = .ok [("size", string)] := by
    rw [specProperties_some, hs']
    rfl
  -- So both versions are generated.
  have hgenerate : ∃ crd w w', twoSizes.generate .composite = .ok crd
      ∧ crd.spec.versions = [w, w'] :=
    ⟨_, _, _, generate_eq_ok_iff.mpr ⟨_, _, _, rfl,
      .cons (generateVersion_eq_ok_iff.mpr ⟨_, hprops, rfl⟩)
        (.cons (generateVersion_eq_ok_iff.mpr ⟨_, hprops', rfl⟩) .nil), rfl⟩, rfl⟩
  obtain ⟨crd, w, w', hcrd, hversions⟩ := hgenerate
  obtain ⟨-, hassembled, hsame⟩ := generate_assembled hcrd
  have hw : crd.spec.versions[0]? = some w := by rw [hversions]; rfl
  have hw' : crd.spec.versions[1]? = some w' := by rw [hversions]; rfl
  obtain ⟨authored, hok, h⟩ := hassembled 0 _ w rfl hw
  obtain rfl := Except.ok.inj (hprops.symm.trans hok)
  exact ⟨crd, w, w', hcrd, hversions, h, hsame twoSizes crd hcrd 0 1 _ _ w w' rfl hw rfl hw' _ _
    _ _ rfl rfl hs hs' rfl⟩

end CompositeCrd
