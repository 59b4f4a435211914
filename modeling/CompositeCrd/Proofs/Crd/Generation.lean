import CompositeCrd.Crd.Generation
import CompositeCrd.Proofs.Schema.Raw

/-!
# When generation succeeds, and with what

What can come out of each stage of generation: choosing the names (`identity_claim_eq_error_iff`),
projecting one version (`generateVersion_eq_ok_iff`), and projecting all versions of a definition
in order (`generate_eq_ok_iff`, `generate_eq_error_iff`). Nothing else has to look into
`Definition.generate`.
-/

namespace CompositeCrd

/-! ### Versions -/

/-- The validation schema of a version is absent or can be decoded. -/
def DefinitionVersion.Decodes (v : DefinitionVersion) : Prop :=
  ∀ raw, v.schema = some raw → ∃ s, raw.node? = .ok s

/-- The version of a custom resource definition, given the properties that the author of the
version contributes. -/
def DefinitionVersion.project (variant : Variant) (v : DefinitionVersion)
    (authored : PropertyTree) : CrdVersion where
  name := v.name
  served := v.served
  storage := v.referenceable
  additionalPrinterColumns := v.additionalPrinterColumns ++ variant.columns
  schema := Schema.assemble variant authored
  statusSubresource := true

variable {d : Definition} {variant : Variant} {v : DefinitionVersion} {w : CrdVersion} {crd : Crd}
  {e : GenerateError}

/-- A version is generated when its schema has a property tree. -/
theorem generateVersion_eq_ok_iff : v.generate variant = .ok w ↔
    ∃ authored, specProperties v.schema = .ok authored ∧ w = v.project variant authored := by
  rw [DefinitionVersion.generate]
  -- The schema decides; everything else is copied.
  cases specProperties v.schema with
  | ok authored =>
    refine ⟨?_, ?_⟩
    · intro h
      exact ⟨authored, rfl, (Except.ok.inj h).symm⟩
    · rintro ⟨_, ⟨⟩, rfl⟩
      rfl
  | error cause => simp

/-- It fails with the error of its schema, under its name. -/
theorem generateVersion_eq_error_iff : v.generate variant = .error e ↔
    ∃ cause, specProperties v.schema = .error cause ∧ e = .specProperties v.name cause := by
  rw [DefinitionVersion.generate]
  cases specProperties v.schema with
  | ok authored => simp
  | error cause =>
    refine ⟨?_, ?_⟩
    · intro h
      exact ⟨cause, rfl, (Except.error.inj h).symm⟩
    · rintro ⟨_, ⟨⟩, rfl⟩
      rfl

/-- So it is generated when its schema decodes. -/
theorem exists_generateVersion_iff : (∃ w, v.generate variant = .ok w) ↔ v.Decodes := by
  rw [DefinitionVersion.Decodes, ← exists_specProperties_iff]
  refine ⟨?_, ?_⟩
  · rintro ⟨w, hw⟩
    obtain ⟨authored, hauthored, -⟩ := generateVersion_eq_ok_iff.mp hw
    exact ⟨authored, hauthored⟩
  · rintro ⟨authored, hauthored⟩
    exact ⟨_, generateVersion_eq_ok_iff.mpr ⟨authored, hauthored, rfl⟩⟩

/-! ### Definitions -/

/-- **A definition is generated exactly when it has names for the variant and every version can
be projected.** -/
theorem generate_eq_ok_iff : d.generate variant = .ok crd ↔
    ∃ name names versions, d.identity variant = .ok (name, names)
      ∧ List.Forall₂ (fun v w => v.generate variant = .ok w) d.spec.versions versions
      ∧ crd = {
        apiVersion := Crd.generatedApiVersion
        kind := Crd.generatedKind
        metadata :=
          { name
            labels := d.metadata.labels
            annotations := d.metadata.annotations
            ownerReferences := [d.controllerReference] }
        spec :=
          { group := d.spec.group
            names := { names with categories := names.categories ++ [variant.category] }
            scope := variant.scope
            versions } } := by
  rw [Definition.generate, bind_eq_ok]
  refine ⟨?_, ?_⟩
  · -- The identity comes first, then the versions in order.
    rintro ⟨⟨name, names⟩, hid, h⟩
    obtain ⟨versions, hversions, h⟩ := bind_eq_ok.mp h
    exact ⟨name, names, versions, hid, mapM_eq_ok_iff.mp hversions, (Except.ok.inj h).symm⟩
  · rintro ⟨name, names, versions, hid, hversions, rfl⟩
    exact ⟨(name, names), hid, bind_eq_ok.mpr ⟨versions, mapM_eq_ok_iff.mpr hversions, rfl⟩⟩

/-- Each version comes from the one in its place. -/
theorem forall₂_versions (h : d.generate variant = .ok crd) :
    List.Forall₂ (fun v w => v.generate variant = .ok w) d.spec.versions crd.spec.versions := by
  obtain ⟨name, names, versions, -, hversions, rfl⟩ := generate_eq_ok_iff.mp h
  exact hversions

/-- Names are checked before any schema is read. -/
theorem generate_eq_error_iff : d.generate variant = .error e ↔
    d.identity variant = .error e
      ∨ (∃ id, d.identity variant = .ok id)
        ∧ d.spec.versions.mapM (·.generate variant) = .error e := by
  rw [Definition.generate, bind_eq_error]
  refine or_congr Iff.rfl ?_
  refine ⟨?_, ?_⟩
  · -- There is an identity, so it is the versions that fail.
    rintro ⟨⟨name, names⟩, hid, h⟩
    rcases bind_eq_error.mp h with h | ⟨_, -, h⟩
    · exact ⟨⟨_, hid⟩, h⟩
    · exact absurd h (by simp [pure, Except.pure])
  · rintro ⟨⟨⟨name, names⟩, hid⟩, h⟩
    exact ⟨(name, names), hid, bind_eq_error.mpr (.inl h)⟩

/-- The claim has no identity when its names are refused. -/
theorem identity_claim_eq_error_iff : d.identity .claim = .error e ↔
    ∃ cause, d.checkedClaimNames = .error cause ∧ e = .claimNames cause := by
  rw [Definition.identity]
  cases d.checkedClaimNames with
  | ok claim => simp
  | error cause =>
    refine ⟨?_, ?_⟩
    · intro h
      exact ⟨cause, rfl, (Except.error.inj h).symm⟩
    · rintro ⟨_, ⟨⟩, rfl⟩
      rfl

/-- It has one when they are accepted. -/
theorem exists_identity_claim_iff :
    (∃ id, d.identity .claim = .ok id) ↔ ∃ names, d.checkedClaimNames = .ok names := by
  rw [Definition.identity]
  cases d.checkedClaimNames <;> simp

/-- Generation succeeds when there are names and every schema decodes. -/
theorem exists_generate_iff : (∃ crd, d.generate variant = .ok crd) ↔
    (∃ id, d.identity variant = .ok id) ∧ ∀ v ∈ d.spec.versions, v.Decodes := by
  refine ⟨?_, ?_⟩
  · rintro ⟨crd, h⟩
    obtain ⟨name, names, versions, hid, hversions, -⟩ := generate_eq_ok_iff.mp h
    refine ⟨⟨_, hid⟩, fun v hv => ?_⟩
    exact exists_generateVersion_iff.mp (exists_forall₂_iff.mp ⟨versions, hversions⟩ v hv)
  · rintro ⟨⟨⟨name, names⟩, hid⟩, hall⟩
    have hread : ∀ v ∈ d.spec.versions, ∃ w, v.generate variant = .ok w :=
      fun v hv => exists_generateVersion_iff.mpr (hall v hv)
    obtain ⟨versions, hversions⟩ := exists_forall₂_iff.mpr hread
    exact ⟨_, generate_eq_ok_iff.mpr ⟨name, names, versions, hid, hversions, rfl⟩⟩

end CompositeCrd
