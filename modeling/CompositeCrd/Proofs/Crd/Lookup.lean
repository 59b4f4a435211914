import CompositeCrd.Proofs.Crd.Image
import CompositeCrd.Proofs.Definition.Lint

/-!
# Looking up versions

A generated resource has one version for each version of its definition, in the same order. So
what is found in it, by name or as the stored version, comes from what is found in the definition
in the same way (`version?_generate`, `storageVersion?_generate`).

If the lint has nothing against the definition, names and the mark of the stored version tell the
versions apart: each is found under its own name, and exactly one is stored (`versions_found`).
-/

namespace CompositeCrd

variable {d : Definition} {variant : Variant} {crd : Crd}

/-! ### What is found comes from what is found in the definition -/

/-- **The version with a name comes from the first one that the definition calls so.** -/
theorem version?_generate (h : d.generate variant = .ok crd) (name : String) :
    Option.Rel (fun v w => v.generate variant = .ok w)
      (d.spec.versions.find? (·.name == name)) (crd.version? name) :=
  forall₂_find? (forall₂_versions h) fun _ _ hw => by rw [(mirrors_of_generateVersion hw).name]

/-- **The stored version comes from the first one that is referenceable.** -/
theorem storageVersion?_generate (h : d.generate variant = .ok crd) :
    Option.Rel (fun v w => v.generate variant = .ok w)
      (d.spec.versions.find? (·.referenceable)) crd.storageVersion? :=
  forall₂_find? (forall₂_versions h) fun _ _ hw => (mirrors_of_generateVersion hw).storage.symm

/-! ### Definitions without issues -/

/-- The names of the versions are those that the definition gives them. -/
theorem map_names_generate (h : d.generate variant = .ok crd) :
    crd.spec.versions.map (·.name) = d.spec.versions.map (·.name) :=
  map_eq_of_forall₂ (forall₂_versions h) fun _ _ _ hw => (mirrors_of_generateVersion hw).name

/-- As many versions are stored as are referenceable. -/
theorem length_stored_generate (h : d.generate variant = .ok crd) :
    (crd.spec.versions.filter (·.storage)).length
      = (d.spec.versions.filter (·.referenceable)).length := by
  have hmarks : crd.spec.versions.map (·.storage) = d.spec.versions.map (·.referenceable) :=
    map_eq_of_forall₂ (forall₂_versions h) fun _ _ _ hw => (mirrors_of_generateVersion hw).storage
  have hcount : (crd.spec.versions.map (·.storage)).countP id
      = (d.spec.versions.map (·.referenceable)).countP id := by rw [hmarks]
  rwa [List.countP_map, List.countP_map, List.countP_eq_length_filter,
    List.countP_eq_length_filter] at hcount

/-- A version is found under its name when no other version has that name. -/
theorem version?_of_nodup (h : (crd.spec.versions.map (·.name)).Nodup) {w : CrdVersion}
    (hw : w ∈ crd.spec.versions) : crd.version? w.name = some w := by
  obtain ⟨found, hfound⟩ : ∃ found, crd.version? w.name = some found :=
    Option.isSome_iff_exists.mp (List.find?_isSome.mpr ⟨w, hw, beq_self_eq_true _⟩)
  have hmem : found ∈ crd.spec.versions := List.mem_of_find?_eq_some hfound
  have hname : found.name = w.name := by
    rw [Crd.version?] at hfound
    simpa using List.find?_some hfound
  rw [hfound, List.inj_on_of_nodup_map h hmem hw hname]

/-- **Versions are found where the definition has them, and a clean definition has each of them
once.** Whatever the definition is, a name leads to what comes from the first version of that name,
and the stored version to what comes from the first referenceable one. If the lint has nothing
against the definition, just one version is stored, no name is blank, names differ by more than the
white space around them, and each version is found under its own. -/
theorem versions_found (h : d.generate variant = .ok crd) :
    (∀ name, Option.Rel (fun v w => v.generate variant = .ok w)
        (d.spec.versions.find? (·.name == name)) (crd.version? name))
      ∧ Option.Rel (fun v w => v.generate variant = .ok w)
        (d.spec.versions.find? (·.referenceable)) crd.storageVersion?
      ∧ (d.versionIssues = [] →
        (∃ w ∈ crd.spec.versions, crd.spec.versions.filter (·.storage) = [w]
            ∧ crd.storageVersion? = some w)
          ∧ (∀ w ∈ crd.spec.versions, Text.trim w.name ≠ "")
          ∧ (crd.spec.versions.map fun w => Text.trim w.name).Nodup
          ∧ ∀ (i : Nat) w, crd.spec.versions[i]? = some w → crd.version? w.name = some w) := by
  refine ⟨version?_generate h, storageVersion?_generate h, fun hclean => ?_⟩
  obtain ⟨hblank, hnodup, hcount⟩ := versionIssues_eq_nil_iff.mp hclean
  have hnames := map_names_generate h
  -- What the lint says of the definition's names is so of the generated ones.
  have htrimmed : (crd.spec.versions.map fun w => Text.trim w.name).Nodup := by
    have heq := congrArg (List.map Text.trim) hnames
    rw [List.map_map, List.map_map] at heq
    exact heq.symm ▸ hnodup
  have hdistinct : (crd.spec.versions.map (·.name)).Nodup := by
    refine List.Nodup.of_map Text.trim ?_
    rwa [List.map_map]
  refine ⟨?_, ?_, htrimmed, fun i w hw => version?_of_nodup hdistinct (List.mem_of_getElem? hw)⟩
  · obtain ⟨w, hw⟩ := List.length_eq_one_iff.mp ((length_stored_generate h).trans hcount)
    have hmem : w ∈ crd.spec.versions.filter (·.storage) := hw ▸ List.mem_singleton_self w
    refine ⟨w, (List.mem_filter.mp hmem).1, hw, ?_⟩
    rw [Crd.storageVersion?, ← List.head?_filter, hw]
    rfl
  · intro w hw
    have hmem : w.name ∈ d.spec.versions.map (·.name) := hnames ▸ List.mem_map_of_mem hw
    obtain ⟨v, hv, hname⟩ := List.mem_map.mp hmem
    exact hname ▸ hblank v hv

/-- A referenceable version with blanks around its name. -/
def paddedVersion : DefinitionVersion where
  name := " v2\t"
  referenceable := true

/-- A definition that has this version behind another one. -/
def paddedSizes : Definition :=
  ((Definition.new "compositesizes.example.org" "example.org"
      { kind := "CompositeSize", plural := "compositesizes" }).withVersion
    { name := "v1" }).withVersion paddedVersion

theorem paddedSizes_found : paddedSizes.versionIssues = []
    ∧ ∃ crd first second, paddedSizes.generate .composite = .ok crd
      ∧ crd.spec.versions = [first, second]
      ∧ crd.version? first.name = some first ∧ crd.version? second.name = some second
      ∧ crd.version? "v2" = none ∧ crd.storageVersion? = some second := by
  have hclean : paddedSizes.versionIssues = [] := by decide +kernel
  obtain ⟨crd, hcrd⟩ : ∃ crd, paddedSizes.generate .composite = .ok crd := ⟨_, rfl⟩
  obtain ⟨hnamed, hstored, hunique⟩ := versions_found hcrd
  obtain ⟨-, -, -, hfound⟩ := hunique hclean
  have hversions := forall₂_versions hcrd
  obtain ⟨first, second, htwo⟩ := List.length_eq_two.mp hversions.length_eq.symm
  refine ⟨hclean, crd, first, second, hcrd, htwo, hfound 0 first (by rw [htwo]; rfl),
    hfound 1 second (by rw [htwo]; rfl), ?_, ?_⟩
  · -- The name has to be given with the blanks around it.
    have hnone : paddedSizes.spec.versions.find? (·.name == "v2") = none := by decide
    have hrel := hnamed "v2"
    rw [hnone] at hrel
    generalize crd.version? "v2" = found at hrel
    cases hrel
    rfl
  · have hsecond : paddedVersion.generate .composite = .ok second := by
      rw [htwo] at hversions
      exact (List.forall₂_cons.mp (List.forall₂_cons.mp hversions).2).1
    change Option.Rel _ (some paddedVersion) _ at hstored
    generalize crd.storageVersion? = found at hstored
    obtain ⟨h⟩ := hstored
    rw [Except.ok.inj (hsecond.symm.trans h)]

end CompositeCrd
