import CompositeCrd.Proofs.Crd.Generation
import CompositeCrd.Proofs.Forms
import CompositeCrd.Render

/-!
# Custom resource definitions read back

A custom resource definition can hold anything, but those that come out of generation or out of
a document hold regular schemas only (`Crd.Regular`). Their schemas are read as their echoes, and
everything around them as it is: the laws of the forms go up from the schema to the whole
definition (`Crd.form_lawful`). So a definition comes back as it is when the numbers in its schemas
do (`Crd.Stable`).

Every definition can be written. It is nested as deep as its deepest schema plus the five levels
around a schema (`Crd.form_writes`).
-/

namespace CompositeCrd

open Json Json.Codec

variable {depth n : Nat} {d : Definition} {variant : Variant} {crd : Crd}

/-! ### Parts of a custom resource definition -/

/-- Regular schemas are read back as their echoes. -/
theorem Schema.codec_lawful : Schema.codec.Lawful depth fun s t => s.Regular ∧ s.echo = t where
  settled := by
    intro t s ht h
    exact ⟨s.echo, (Schema.Tree.readsRegular ht).node h, rfl⟩
  reads := by
    rintro s _ v ⟨hs, rfl⟩ hv hdepth
    obtain rfl := Option.some.inj hv
    exact ⟨hs.toValue_proper, Schema.ofTree_echo hdepth (hs.readsBack hdepth)⟩

/-- A schema is as deep as its value. -/
theorem Schema.codec_writes : Schema.codec.Writes n fun s => s.toValue.nesting ≤ n := by
  intro s
  refine ⟨?_, fun h => ⟨_, rfl, h⟩⟩
  rintro ⟨v, hv, hle⟩
  exact Option.some.inj hv ▸ hle

/-- A regular schema comes back from its place in a version, with what comes back of its numbers.
-/
theorem CrdVersion.validationForm_lawful :
    validationForm.Lawful depth fun s t => s.Regular ∧ s.echo = t := by
  refine (record_lawful (fun _ _ => .required Schema.codec_lawful .done)
    (by decide) (fun _ => rfl) (fun _ => rfl)).congr ?_
  simp

/-- A schema is written one level below its place in a version. -/
theorem CrdVersion.validationForm_writes :
    validationForm.Writes (n + 1) fun s => s.toValue.nesting ≤ n := by
  refine (record_writes <| .required Schema.codec_writes .done).congr ?_
  simp

/-- The mark of a subresource comes back. -/
theorem CrdVersion.markerForm_lawful : markerForm.Lawful depth (· = ·) := by
  refine (record_lawful (fun _ _ => .done) (by decide) (fun _ => rfl) (fun _ => rfl)).congr ?_
  simp

theorem CrdVersion.markerForm_writes : markerForm.Writes (n + 1) fun _ => True :=
  record_writes .done

/-- The subresources of a version come back. -/
theorem CrdVersion.subresourcesForm_lawful : subresourcesForm.Lawful depth (· = ·) := by
  refine (record_lawful (fun _ _ => .optional markerForm_lawful record_neverNull .done)
    (by decide) ?_ ?_).congr ?_
  · -- Whether there is a status is whether there is a marker, which holds nothing.
    intro status
    cases status <;> rfl
  · rintro ⟨_ | ⟨⟩, ⟨⟩⟩ <;> rfl
  · intro status status'
    cases status <;> cases status' <;> simp

/-- The subresources of a version are two levels deep. -/
theorem CrdVersion.subresourcesForm_writes :
    subresourcesForm.Writes (n + 2) fun _ => True := by
  refine (record_writes <| .optional markerForm_writes .done).congr ?_
  simp

/-- The version with what comes back of its schema. -/
def CrdVersion.echo (v : CrdVersion) : CrdVersion :=
  { v with schema := v.schema.echo }

/-- A version with a regular schema comes back, with what comes back of its numbers. -/
theorem CrdVersion.form_lawful :
    form.Lawful depth fun v w => v.schema.Regular ∧ v.echo = w := by
  refine (record_lawful (fun _ _ => .required text_lawful <| .required flag_lawful <|
    .required flag_lawful <| .listed (fun _ _ => PrinterColumn.form_lawful) <|
    .required validationForm_lawful <| .defaulted subresourcesForm_lawful rfl .done)
    (by decide) (fun _ => rfl) (fun _ => rfl)).congr ?_
  rintro ⟨⟩ ⟨⟩
  simp [List.forall₂_eq_eq_eq, CrdVersion.echo, and_left_comm, and_assoc]

/-- A version is as deep as its schema, two levels above it. -/
theorem CrdVersion.form_writes :
    form.Writes (n + 3) fun v => v.schema.toValue.nesting ≤ n + 1 := by
  refine (record_writes <| .required text_writes <| .required flag_writes <|
    .required flag_writes <| .listed PrinterColumn.form_writes <|
    .required validationForm_writes <| .defaulted subresourcesForm_writes .done).congr ?_
  simp

/-- A specification with regular schemas comes back. -/
theorem CrdSpec.form_lawful :
    form.Lawful depth fun s t => (∀ v ∈ s.versions, v.schema.Regular)
      ∧ { s with versions := s.versions.map CrdVersion.echo } = t := by
  have hscope : ∀ scope : Scope, Spelled.ofText? (Spelled.spell scope) = some scope := by
    rintro (_ | _) <;> rfl
  refine (record_lawful (fun _ _ => .required text_lawful <|
    .required ResourceNames.form_lawful <| .required (spelled_lawful hscope) <|
    .required (list_lawful fun _ _ => CrdVersion.form_lawful) .done)
    (by decide) (fun _ => rfl) (fun _ => rfl)).congr ?_
  rintro ⟨⟩ ⟨⟩
  simp [forall₂_and_map_iff, and_left_comm]

/-- A specification is as deep as its versions, two levels above them. -/
theorem CrdSpec.form_writes :
    form.Writes (n + 5) fun s => ∀ v ∈ s.versions, v.schema.toValue.nesting ≤ n + 1 := by
  refine (record_writes <| .required text_writes <| .required ResourceNames.form_writes <|
    .required spelled_writes <| .required (list_writes CrdVersion.form_writes) .done).congr ?_
  simp

/-- A condition comes back as it is. -/
theorem Condition.form_lawful : (form : Codec Condition).Lawful depth (· = ·) := by
  have hstatus : ∀ status : ConditionStatus,
      Spelled.ofText? (Spelled.spell status) = some status := by
    rintro (_ | _ | _) <;> rfl
  refine (record_lawful (fun _ _ => .required text_lawful <|
    .required (spelled_lawful hstatus) <| .optional text_lawful text_neverNull <|
    .optional text_lawful text_neverNull <| .optional text_lawful text_neverNull .done)
    (by decide) (fun _ => rfl) (fun _ => rfl)).congr ?_
  rintro ⟨⟩ ⟨⟩
  simp [optionRel_eq_iff]

/-- A condition is one level deep. -/
theorem Condition.form_writes : (form : Codec Condition).Writes (n + 1) fun _ => True := by
  refine (record_writes <| .required text_writes <| .required spelled_writes <|
    .optional text_writes <| .optional text_writes <| .optional text_writes .done).congr ?_
  simp

/-- A status comes back as it is. -/
theorem CrdStatus.form_lawful : (form : Codec CrdStatus).Lawful depth (· = ·) := by
  refine (record_lawful (fun _ _ => .defaulted
    (list_lawful fun _ _ => Condition.form_lawful) .nil .done)
    (by decide) (fun _ => rfl) (fun _ => rfl)).congr ?_
  rintro ⟨⟩ ⟨⟩
  simp [List.forall₂_eq_eq_eq]

/-- A status is three levels deep. -/
theorem CrdStatus.form_writes : (form : Codec CrdStatus).Writes (n + 3) fun _ => True := by
  refine (record_writes <| .defaulted (list_writes Condition.form_writes) .done).congr ?_
  simp

/-! ### Whole definitions -/

/-- All schemas in the definition are regular. -/
def Crd.Regular (crd : Crd) : Prop :=
  ∀ v ∈ crd.spec.versions, v.schema.Regular

/-- **The definition as it is read back**: its schemas are what comes back of them. -/
def Crd.echo (crd : Crd) : Crd :=
  { crd with spec.versions := crd.spec.versions.map CrdVersion.echo }

/-- The numbers in all schemas of the definition come back from their texts. -/
def Crd.Stable (crd : Crd) : Prop :=
  ∀ v ∈ crd.spec.versions, v.schema.toValue.Stable

/-- A regular definition is its own echo if the numbers in it come back. -/
theorem Crd.Regular.echo_eq (h : crd.Regular) (hstable : crd.Stable) : crd.echo = crd := by
  have hversions : crd.spec.versions.map CrdVersion.echo = crd.spec.versions.map id := by
    refine List.map_congr_left fun v hv => ?_
    rw [CrdVersion.echo, (h v hv).echo_eq (hstable v hv)]
    rfl
  rw [Crd.echo, hversions, List.map_id]

/-- **Definitions with regular schemas are read back as their echoes.** -/
theorem Crd.form_lawful : form.Lawful depth fun crd crd' => crd.Regular ∧ crd.echo = crd' := by
  refine (record_lawful (fun _ _ => .required text_lawful <| .required text_lawful <|
    .required ObjectMeta.form_lawful <| .required CrdSpec.form_lawful <|
    .optional CrdStatus.form_lawful record_neverNull .done)
    (by decide) (fun _ => rfl) (fun _ => rfl)).congr ?_
  rintro ⟨⟩ ⟨⟩
  simp [optionRel_eq_iff, Crd.Regular, Crd.echo, and_left_comm, and_assoc]

/-- **A definition is nested five levels deeper than its schemas.** -/
theorem Crd.form_writes :
    form.Writes (n + 6) fun crd => ∀ v ∈ crd.spec.versions, v.schema.toValue.nesting ≤ n + 1 := by
  refine (record_writes <| .required text_writes <| .required text_writes <|
    .required ObjectMeta.form_writes <| .required CrdSpec.form_writes <|
    .optional CrdStatus.form_writes .done).congr ?_
  simp

/-- Every custom resource definition can be written. -/
theorem Crd.exists_encode (crd : Crd) : ∃ v, form.encode crd = some v := by
  -- Some number bounds the nesting of all schemas.
  obtain ⟨n, hn⟩ : ∃ n, ∀ v ∈ crd.spec.versions, v.schema.toValue.nesting ≤ n + 1 := by
    induction crd.spec.versions with
    | nil => exact ⟨0, by simp⟩
    | cons v versions ih =>
      obtain ⟨n, hn⟩ := ih
      refine ⟨max v.schema.toValue.nesting n, List.forall_mem_cons.mpr ⟨by omega, ?_⟩⟩
      intro w hw
      have := hn w hw
      omega
  obtain ⟨v, hv, -⟩ := (form_writes crd).mpr hn
  exact ⟨v, hv⟩

/-- The ways to come by a custom resource definition. -/
inductive Crd.Arises : Crd → Prop
  /-- It is generated from a definition. -/
  | generated {d : Definition} {variant : Variant} {crd : Crd} (h : d.generate variant = .ok crd) :
    Arises crd
  /-- It is read from a document. -/
  | decoded {s : List Symbol} {crd : Crd} (h : form.read (.ofSymbols s) = .ok crd) : Arises crd

/-- The schema of a generated version is regular, whatever its author contributes. -/
theorem Schema.regular_assemble {authored : PropertyTree} (h : RegularTable authored) :
    (Schema.assemble variant authored).Regular := by
  have hbase : Schema.Regular { object with properties := Standard.base } :=
    regular_object.put .properties regularTable_base
  have hspec : ∀ e ∈ variant.specProperties, e.2.Regular := by
    cases variant with
    | composite => exact regularTable_compositeSpec.2
    | claim => exact regularTable_claimSpec.2
  exact ((hbase.overlay h.2 "spec").overlay hspec "spec").overlay regularTable_status.2 "status"

/-- Generated and decoded definitions are regular. -/
theorem Crd.Arises.regular (h : crd.Arises) : crd.Regular := by
  cases h with
  | decoded h =>
    obtain ⟨_, hregular, -⟩ := form_lawful.settled_of_read h
    exact hregular
  | generated h =>
    intro w hw
    -- Each version comes from one of the definition, whose author contributes regular nodes.
    obtain ⟨v, -, hv⟩ := exists_of_forall₂ (forall₂_versions h) hw
    obtain ⟨authored, hauthored, rfl⟩ := generateVersion_eq_ok_iff.mp hv
    exact Schema.regular_assemble (specProperties_regular hauthored)

/-- **A custom resource definition reads back**, however it came about: it can be written, and
as long as what is written does not nest too deep, both its compact text and the text that is
rendered for it are read, and as the same definition when the numbers in its schemas come back from
their texts. -/
theorem crd_reads_back (h : crd.Arises) :
    ∃ v, Crd.form.encode crd = some v ∧ crd.render .json = some (v.pretty ++ "\n")
      ∧ (v.nesting ≤ maxDepth → ∀ text ∈ [v.compact, v.pretty ++ "\n"],
          Crd.form.read (.ofText text) = .ok crd.echo
            ∧ (crd.Stable → Crd.form.read (.ofText text) = .ok crd)) := by
  obtain ⟨v, hv⟩ := crd.exists_encode
  refine ⟨v, hv, ?_, ?_⟩
  · rw [Crd.render, hv]
    rfl
  · intro hdepth text htext
    -- Its schemas are regular wherever it comes from, and that is all the form asks for.
    have htexts := Crd.form_lawful.read_texts ⟨h.regular, rfl⟩ hv hdepth
    have hread : Crd.form.read (.ofText text) = .ok crd.echo := by
      simp only [List.mem_cons, List.not_mem_nil, or_false] at htext
      rcases htext with rfl | rfl
      · exact htexts.1
      · exact htexts.2
    refine ⟨hread, fun hstable => ?_⟩
    rw [hread, h.regular.echo_eq hstable]

/-- What a server may say of a small definition: members that nobody asked for, a `null` where
nothing is known, and none of the members that may be missing. -/
def reported : Value :=
  .object
    [("kind", .string "CustomResourceDefinition"),
      ("apiVersion", .string "apiextensions.k8s.io/v1"),
      ("metadata", .object [("name", .string "sizes.example.org"), ("uid", .null),
        ("generation", .number (.int 3))]),
      ("spec", .object [("group", .string "example.org"), ("scope", .string "Namespaced"),
        ("names", .object [("plural", .string "sizes"), ("kind", .string "Size")]),
        ("versions", .array [.object [("schema", .object [("openAPIV3Schema", .object
            [("nullable", .bool false), ("default", .number (.int (-1))), ("title", .null)])]),
          ("storage", .bool true), ("served", .bool true), ("name", .string "v1")]])]),
      ("status", .object [("conditions", .array [.object [("status", .string "True"),
        ("type", .string "Established"), ("message", .null)]])])]

/-- The definition that is read from it. -/
def reportedCrd : Crd where
  apiVersion := "apiextensions.k8s.io/v1"
  kind := "CustomResourceDefinition"
  metadata := { name := "sizes.example.org" }
  spec :=
    { group := "example.org"
      names := { kind := "Size", plural := "sizes" }
      scope := .namespaced
      versions := [
        { name := "v1", served := true, storage := true, additionalPrinterColumns := []
          schema := { default := some (.number (.int (-1))), extra := [("title", .null)] }
          statusSubresource := false }] }
  status := some { conditions := [{ type := "Established", status := .true }] }

/-- A definition with a status comes back from all of its texts. -/
theorem reported_reads_back : ∃ v, Crd.form.encode reportedCrd = some v
    ∧ Crd.form.read (.ofText reported.compact) = .ok reportedCrd
    ∧ Crd.form.read (.ofText v.compact) = .ok reportedCrd
    ∧ Crd.form.read (.ofText (v.pretty ++ "\n")) = .ok reportedCrd := by
  have hproper : reported.Proper := by
    simp [reported, Number.Proper, Number.fits]
  have hread : Crd.form.read (.ofText reported.compact) = .ok reportedCrd := by
    rw [ofText_compact hproper]
    rfl
  obtain ⟨v, hv, -, hback⟩ := crd_reads_back (.decoded hread)
  have hdepth : v.nesting ≤ maxDepth := by
    obtain rfl := Option.some.inj hv
    decide
  have hstable : reportedCrd.Stable := List.forall_mem_singleton.mpr rfl
  exact ⟨v, hv, hread, (hback hdepth _ List.mem_cons_self).2 hstable,
    (hback hdepth _ (List.mem_cons_of_mem _ List.mem_cons_self)).2 hstable⟩

end CompositeCrd
