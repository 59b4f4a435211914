import CompositeCrd.Proofs.Crd.Generation
import CompositeCrd.Proofs.Names

/-!
# Generated resources mirror their definition

Apart from the schemas, a generated resource copies its definition. `CrdVersion.Mirrors` and
`Crd.Mirrors` spell out which field comes from where, for one version and for the whole
resource: versions one to one and in order, the author's columns and categories in front of
those of the variant, and a single owner, which is the definition under its fixed kind.

The description is complete (`Crd.Mirrors.unique`). So what the resource depends on can be read
off it: two definitions with the same `Definition.SameSource` have the same mirror images
(`Definition.SameSource.mirrors`), whatever they say of their own kind and owners, and whatever
the names of the other variant are.
-/

namespace CompositeCrd

variable {d d' : Definition} {variant : Variant} {v v' : DefinitionVersion} {w w' : CrdVersion}
  {crd crd' : Crd} {claim : ResourceNames}

/-! ### The description -/

/-- **What a generated version takes** from a version of the definition. -/
structure CrdVersion.Mirrors (variant : Variant) (v : DefinitionVersion) (w : CrdVersion) :
    Prop where
  name : w.name = v.name
  served : w.served = v.served
  storage : w.storage = v.referenceable
  /-- The author's columns come first. -/
  columns : w.additionalPrinterColumns = v.additionalPrinterColumns ++ variant.columns
  status : w.statusSubresource = true
  /-- The author's document matters for what it contributes to the schema only. -/
  schema : ∃ authored, specProperties v.schema = .ok authored
    ∧ w.schema = Schema.assemble variant authored

/-- The names that a definition declares for a variant. -/
def Definition.declaredNames (d : Definition) : Variant → Option ResourceNames
  | .composite => some d.spec.names
  | .claim => d.spec.claimNames

/-- The name of the resource that a definition generates under these names. -/
def Definition.resourceName (d : Definition) (names : ResourceNames) : Variant → String
  | .composite => d.metadata.name
  | .claim => names.plural ++ "." ++ d.spec.group

/-- **What a generated resource takes** from its definition. -/
structure Crd.Mirrors (variant : Variant) (d : Definition) (crd : Crd) : Prop where
  apiVersion : crd.apiVersion = Crd.generatedApiVersion
  kind : crd.kind = Crd.generatedKind
  /-- The names are those declared for the variant, with one category behind the author's. -/
  names : ∃ names, d.declaredNames variant = some names
    ∧ crd.metadata.name = d.resourceName names variant
    ∧ crd.spec.names = { names with categories := names.categories ++ [variant.category] }
  uid : crd.metadata.uid = none
  labels : crd.metadata.labels = d.metadata.labels
  annotations : crd.metadata.annotations = d.metadata.annotations
  /-- The only owner is the definition, under the kind that all definitions have. -/
  owner : crd.metadata.ownerReferences = [{
    apiVersion := "apiextensions.crossplane.io/v1alpha1"
    kind := "CompositeResourceDefinition"
    name := d.metadata.name
    uid := d.metadata.uid.getD ""
    controller := some true
    blockOwnerDeletion := some true }]
  group : crd.spec.group = d.spec.group
  scope : crd.spec.scope = variant.scope
  /-- There is one version for each version of the definition. -/
  length : crd.spec.versions.length = d.spec.versions.length
  versions : ∀ (i : Nat) v w, d.spec.versions[i]? = some v → crd.spec.versions[i]? = some w →
    w.Mirrors variant v
  status : crd.status = none

/-! ### The description leaves nothing open -/

/-- A version mirrors its source in one way only. -/
theorem CrdVersion.Mirrors.unique (h : w.Mirrors variant v) (h' : w'.Mirrors variant v) :
    w = w' := by
  obtain ⟨authored, hauthored, hschema⟩ := h.schema
  obtain ⟨authored', hauthored', hschema'⟩ := h'.schema
  have heq : authored = authored' := Except.ok.inj (hauthored.symm.trans hauthored')
  have hschemas : w.schema = w'.schema := by rw [hschema, hschema', heq]
  -- Every other field is equal to one of the source.
  have hname := h.name.trans h'.name.symm
  have hserved := h.served.trans h'.served.symm
  have hstorage := h.storage.trans h'.storage.symm
  have hcolumns := h.columns.trans h'.columns.symm
  have hstatus := h.status.trans h'.status.symm
  cases w
  cases w'
  congr

/-- The versions that mirror those of a definition are determined, position by position. -/
theorem Crd.Mirrors.versions_eq (h : crd.Mirrors variant d) (h' : crd'.Mirrors variant d) :
    crd.spec.versions = crd'.spec.versions := by
  have hlength : crd.spec.versions.length = crd'.spec.versions.length :=
    h.length.trans h'.length.symm
  refine List.ext_getElem hlength fun i hi hi' => ?_
  have hi'' : i < d.spec.versions.length := h.length ▸ hi
  have hv : d.spec.versions[i]? = some d.spec.versions[i] := List.getElem?_eq_getElem hi''
  have hw := h.versions i _ _ hv (List.getElem?_eq_getElem hi)
  have hw' := h'.versions i _ _ hv (List.getElem?_eq_getElem hi')
  exact hw.unique hw'

/-- The metadata of an image is determined but for the name. -/
theorem Crd.Mirrors.metadata_eq (h : crd.Mirrors variant d) (h' : crd'.Mirrors variant d)
    (hname : crd.metadata.name = crd'.metadata.name) : crd.metadata = crd'.metadata := by
  have huid := h.uid.trans h'.uid.symm
  have hlabels := h.labels.trans h'.labels.symm
  have hannotations := h.annotations.trans h'.annotations.symm
  have howner := h.owner.trans h'.owner.symm
  exact (ObjectMeta.mk.injEq ..).mpr ⟨hname, huid, hlabels, hannotations, howner⟩

/-- The specification is determined but for the names. -/
theorem Crd.Mirrors.spec_eq (h : crd.Mirrors variant d) (h' : crd'.Mirrors variant d)
    (hnames : crd.spec.names = crd'.spec.names) : crd.spec = crd'.spec := by
  have hgroup := h.group.trans h'.group.symm
  have hscope := h.scope.trans h'.scope.symm
  have hversions := h.versions_eq h'
  exact (CrdSpec.mk.injEq ..).mpr ⟨hgroup, hnames, hscope, hversions⟩

/-- **The description determines the resource.** -/
theorem Crd.Mirrors.unique (h : crd.Mirrors variant d) (h' : crd'.Mirrors variant d) :
    crd = crd' := by
  obtain ⟨names, hnames, hname, hset⟩ := h.names
  obtain ⟨names', hnames', hname', hset'⟩ := h'.names
  obtain rfl : names = names' := Option.some.inj (hnames.symm.trans hnames')
  -- The names settle the metadata and the specification.
  have hapiVersion := h.apiVersion.trans h'.apiVersion.symm
  have hkind := h.kind.trans h'.kind.symm
  have hmetadata := h.metadata_eq h' (hname.trans hname'.symm)
  have hspec := h.spec_eq h' (hset.trans hset'.symm)
  have hstatus := h.status.trans h'.status.symm
  cases crd
  cases crd'
  congr

/-! ### What the resource depends on -/

/-- Two versions contribute the same to a generated resource. -/
structure DefinitionVersion.SameSource (v v' : DefinitionVersion) : Prop where
  name : v'.name = v.name
  served : v'.served = v.served
  referenceable : v'.referenceable = v.referenceable
  columns : v'.additionalPrinterColumns = v.additionalPrinterColumns
  schema : ∀ authored,
    specProperties v'.schema = .ok authored ↔ specProperties v.schema = .ok authored

/-- **Two definitions contribute the same** to the resource of a variant. Nothing is said of the
kind and version that they give themselves, of their owners, of the names of the other variant,
and of what their schemas hold outside the properties of `spec`. -/
structure Definition.SameSource (variant : Variant) (d d' : Definition) : Prop where
  name : d'.metadata.name = d.metadata.name
  /-- An identifier that is missing counts as an empty one. -/
  uid : d'.metadata.uid.getD "" = d.metadata.uid.getD ""
  labels : d'.metadata.labels = d.metadata.labels
  annotations : d'.metadata.annotations = d.metadata.annotations
  group : d'.spec.group = d.spec.group
  names : d'.declaredNames variant = d.declaredNames variant
  versions : List.Forall₂ DefinitionVersion.SameSource d.spec.versions d'.spec.versions

/-- What mirrors a version mirrors one with the same source. -/
theorem DefinitionVersion.SameSource.mirrors (h : v.SameSource v') (hw : w.Mirrors variant v') :
    w.Mirrors variant v where
  name := hw.name.trans h.name
  served := hw.served.trans h.served
  storage := hw.storage.trans h.referenceable
  columns := h.columns ▸ hw.columns
  status := hw.status
  schema := by
    obtain ⟨authored, hauthored, hschema⟩ := hw.schema
    exact ⟨authored, (h.schema authored).mp hauthored, hschema⟩

/-- The same source gives the same resource name. -/
theorem Definition.SameSource.resourceName (h : d.SameSource variant d') (names : ResourceNames) :
    d'.resourceName names variant = d.resourceName names variant := by
  cases variant with
  | composite => exact h.name
  | claim =>
    -- A claim is named after its plural and the group, and not after the definition.
    rw [Definition.resourceName, Definition.resourceName, h.group]

/-- A resource that mirrors the one definition mirrors the other. -/
theorem Definition.SameSource.mirrors (h : d.SameSource variant d')
    (hcrd : crd.Mirrors variant d') : crd.Mirrors variant d where
  apiVersion := hcrd.apiVersion
  kind := hcrd.kind
  names := by
    obtain ⟨names, hnames, hname, hset⟩ := hcrd.names
    exact ⟨names, h.names ▸ hnames, hname.trans (h.resourceName names), hset⟩
  uid := hcrd.uid
  labels := hcrd.labels.trans h.labels
  annotations := hcrd.annotations.trans h.annotations
  owner := by rw [hcrd.owner, h.name, h.uid]
  group := hcrd.group.trans h.group
  scope := hcrd.scope
  length := hcrd.length.trans h.versions.length_eq.symm
  versions := by
    intro i v w hv hw
    -- The version of the other definition at this position contributes the same.
    have hi : i < d'.spec.versions.length :=
      h.versions.length_eq ▸ (List.getElem?_eq_some_iff.mp hv).1
    have hv' : d'.spec.versions[i]? = some d'.spec.versions[i] := List.getElem?_eq_getElem hi
    have hsame : v.SameSource d'.spec.versions[i] := forall₂_getElem? h.versions hv hv'
    exact hsame.mirrors (hcrd.versions i _ w hv' hw)
  status := hcrd.status

/-! ### Generation -/

/-- The names of a resource are declared, and its name is made from them. -/
theorem identity_eq_ok {name : String} {names : ResourceNames}
    (h : d.identity variant = .ok (name, names)) :
    d.declaredNames variant = some names ∧ name = d.resourceName names variant := by
  cases variant with
  | composite =>
    obtain ⟨rfl, rfl⟩ := Prod.mk.inj (Except.ok.inj h)
    exact ⟨rfl, rfl⟩
  | claim =>
    rw [Definition.identity] at h
    -- The claim has an identity when its names have been accepted.
    split at h
    · next claim hclaim =>
      obtain ⟨rfl, rfl⟩ := Prod.mk.inj (Except.ok.inj h)
      exact ⟨(ResourceNames.checkClaim_eq_ok_iff.mp hclaim).1, rfl⟩
    · exact absurd h (by simp)

/-- A version that is generated mirrors its source. -/
theorem mirrors_of_generateVersion (h : v.generate variant = .ok w) : w.Mirrors variant v := by
  obtain ⟨authored, hauthored, rfl⟩ := generateVersion_eq_ok_iff.mp h
  exact ⟨rfl, rfl, rfl, rfl, rfl, authored, hauthored, rfl⟩

/-- A resource definition that is generated mirrors its definition. -/
theorem mirrors_of_generate (h : d.generate variant = .ok crd) : crd.Mirrors variant d := by
  obtain ⟨name, names, versions, hid, hversions, rfl⟩ := generate_eq_ok_iff.mp h
  obtain ⟨hdeclared, hname⟩ := identity_eq_ok hid
  refine ⟨rfl, rfl, ⟨names, hdeclared, hname, rfl⟩, rfl, rfl, rfl, rfl, rfl, rfl,
    hversions.length_eq.symm, ?_, rfl⟩
  -- Versions are projected in place, so each stands where its source does.
  intro i v w hv hw
  exact mirrors_of_generateVersion (forall₂_getElem? hversions hv hw)

/-- Versions that contribute the same can be projected alike. -/
theorem DefinitionVersion.SameSource.decodes (h : v.SameSource v') (hv : v.Decodes) :
    v'.Decodes := by
  rw [DefinitionVersion.Decodes, ← exists_specProperties_iff] at hv ⊢
  obtain ⟨authored, hauthored⟩ := hv
  exact ⟨authored, (h.schema authored).mpr hauthored⟩

/-- **A definition that contributes the same generates the same**, if its own names are good. -/
theorem Definition.SameSource.generate_eq (h : d.SameSource variant d')
    (hid : ∃ id, d'.identity variant = .ok id) (hcrd : d.generate variant = .ok crd) :
    d'.generate variant = .ok crd := by
  have hdecodes : ∀ v ∈ d.spec.versions, v.Decodes := (exists_generate_iff.mp ⟨crd, hcrd⟩).2
  have hdecodes' : ∀ v' ∈ d'.spec.versions, v'.Decodes := by
    intro v' hv'
    obtain ⟨v, hv, hsame⟩ := exists_of_forall₂ h.versions hv'
    exact hsame.decodes (hdecodes v hv)
  obtain ⟨crd', hcrd'⟩ := exists_generate_iff.mpr ⟨hid, hdecodes'⟩
  -- Both results mirror the one definition.
  have hmirrors := h.mirrors (mirrors_of_generate hcrd')
  rw [hcrd', (mirrors_of_generate hcrd).unique hmirrors]

theorem DefinitionVersion.SameSource.refl (v : DefinitionVersion) : v.SameSource v :=
  ⟨rfl, rfl, rfl, rfl, fun _ => Iff.rfl⟩

/-- Whether there are names does not depend on what a definition says of itself. -/
theorem exists_identity_of_eq (hnames : d'.spec.names = d.spec.names)
    (hclaim : variant = .claim → d'.spec.claimNames = d.spec.claimNames)
    (h : ∃ id, d.identity variant = .ok id) : ∃ id, d'.identity variant = .ok id := by
  cases variant with
  | composite => exact ⟨_, rfl⟩
  | claim =>
    -- Of the composite resource the check looks at the names only.
    rw [exists_identity_claim_iff] at h ⊢
    rwa [Definition.checkedClaimNames, hnames, hclaim rfl]

/-- **A generated resource is the mirror image of its definition**, and depends on nothing that
the image does not show. So two definitions that contribute the same generate the same; in
particular, the kind and version that a definition gives itself and its owners are of no
account, and neither are the names of a claim for the composite resource. -/
theorem generate_mirrors (h : d.generate variant = .ok crd) :
    crd.Mirrors variant d
      ∧ (∀ d', d.SameSource variant d' →
          (variant = .claim → ∃ names, d'.checkedClaimNames = .ok names) →
          d'.generate variant = .ok crd)
      ∧ ∀ apiVersion kind ownerReferences claimNames,
          (variant = .claim → claimNames = d.spec.claimNames) →
          ({ d with
            apiVersion, kind
            metadata.ownerReferences := ownerReferences
            spec.claimNames := claimNames } : Definition).generate variant = .ok crd := by
  refine ⟨mirrors_of_generate h, ?_, ?_⟩
  · -- From another definition with the same source, provided its claim names are accepted.
    intro d' hsame hnames
    refine hsame.generate_eq ?_ h
    cases variant with
    | composite => exact ⟨_, rfl⟩
    | claim => exact exists_identity_claim_iff.mpr (hnames rfl)
  · -- What is replaced here is no source.
    intro apiVersion kind ownerReferences claimNames hclaim
    have hid := (exists_generate_iff.mp ⟨crd, h⟩).1
    have hversions : List.Forall₂ DefinitionVersion.SameSource d.spec.versions d.spec.versions :=
      List.forall₂_same.mpr fun v _ => .refl v
    have hdeclared : ({ d with
        apiVersion, kind
        metadata.ownerReferences := ownerReferences
        spec.claimNames := claimNames } : Definition).declaredNames variant
          = d.declaredNames variant := by
      cases variant with
      | composite => rfl
      | claim => exact hclaim rfl
    have hsame : d.SameSource variant { d with
        apiVersion, kind
        metadata.ownerReferences := ownerReferences
        spec.claimNames := claimNames } :=
      ⟨rfl, rfl, rfl, rfl, rfl, hdeclared, hversions⟩
    exact hsame.generate_eq (exists_identity_of_eq (d := d) rfl hclaim hid) h

/-- A definition that gives itself a kind of its own and an owner, has no identifier, and repeats
a category and the name of a version. -/
def oddSizes : Definition where
  apiVersion := "example.org/v9"
  kind := "Other"
  metadata :=
    { name := "compositesizes.example.org"
      ownerReferences := [{ apiVersion := "v1", kind := "Folder", name := "home" }] }
  spec :=
    { group := "example.org"
      names := { kind := "CompositeSize", plural := "compositesizes" }
      claimNames := some { kind := "Size", plural := "sizes", categories := ["all", "all"] }
      versions :=
        [{ name := "v1", referenceable := true, additionalPrinterColumns := [.ready] },
          { name := "v1", served := false }] }

/-- The claim of a definition with odd fields: the names and columns come from it, nothing comes
from what only looks like a source. -/
theorem oddSizes_mirrored : ∃ crd, oddSizes.generate .claim = .ok crd
    ∧ crd.metadata.name = "sizes.example.org"
    ∧ crd.metadata.ownerReferences.map (·.kind) = ["CompositeResourceDefinition"]
    ∧ crd.spec.names.categories = ["all", "all", "claim"]
    ∧ crd.spec.versions.length = 2
    ∧ (∀ w, crd.spec.versions[0]? = some w →
        w.storage = true ∧ w.additionalPrinterColumns = [.ready, .ready, .connectionSecret, .age])
    ∧ ({ oddSizes with
        apiVersion := Definition.definitionApiVersion
        kind := Definition.definitionKind
        metadata.ownerReferences := [] } : Definition).generate .claim = .ok crd := by
  have hgenerate : ∃ crd, oddSizes.generate .claim = .ok crd :=
    ⟨_, generate_eq_ok_iff.mpr ⟨_, _, _, rfl,
      .cons (generateVersion_eq_ok_iff.mpr ⟨_, rfl, rfl⟩)
        (.cons (generateVersion_eq_ok_iff.mpr ⟨_, rfl, rfl⟩) .nil), rfl⟩⟩
  obtain ⟨crd, hcrd⟩ := hgenerate
  obtain ⟨hmirrors, -, hsame⟩ := generate_mirrors hcrd
  obtain ⟨names, ⟨⟩, hname, hnames⟩ := hmirrors.names
  -- The first version mirrors the first one of the definition, with its own column in front.
  have hfirst : ∀ w, crd.spec.versions[0]? = some w → w.storage = true
      ∧ w.additionalPrinterColumns = [.ready, .ready, .connectionSecret, .age] := by
    intro w hw
    have h := hmirrors.versions 0 _ w rfl hw
    exact ⟨h.storage, h.columns⟩
  exact ⟨crd, hcrd, hname, by rw [hmirrors.owner]; rfl, by rw [hnames]; rfl, hmirrors.length,
    hfirst, hsame _ _ _ _ fun _ => rfl⟩

end CompositeCrd
