import CompositeCrd.Definition
import CompositeCrd.Proofs.Forms
import CompositeCrd.Proofs.Schema.Stored

/-!
# Definitions and the manifests they are read from

A definition is written with the values of its raw schemas in it, and read back with what comes
back of these schemas (`Definition.echo`) and everything else as it was
(`Definition.form_lawful`). If the numbers in them come back, these are the raw schemas as they are
stored (`Definition.stored`). Whether a definition can be written at all is a matter of the raw
schemas alone, which stand five levels below the definition (`Definition.form_writes`).
-/

namespace CompositeCrd

open Json Json.Codec

variable {depth n : Nat} {d : Definition} {raw : RawSchema} {j : Value}
  {G : RawSchema → Prop}

/-- The JSON form of definitions. -/
abbrev Definition.jsonForm : Codec Definition :=
  Definition.form

/-! ### What is stored of a definition -/

/-- The version with its raw schema replaced by another one. -/
def DefinitionVersion.mapSchema (f : RawSchema → RawSchema) (v : DefinitionVersion) :
    DefinitionVersion :=
  { v with schema := v.schema.map f }

/-- The definition with its raw schemas replaced by other ones. -/
def Definition.mapSchemas (f : RawSchema → RawSchema) (d : Definition) : Definition :=
  { d with spec.versions := d.spec.versions.map (DefinitionVersion.mapSchema f) }

/-- The definition with its raw schemas as they are stored. -/
def Definition.stored (d : Definition) : Definition :=
  d.mapSchemas RawSchema.stored

/-- **The definition as it is read back from a manifest.** -/
def Definition.echo (d : Definition) : Definition :=
  d.mapSchemas RawSchema.echo

/-- The raw schema is attached to a version of the definition. -/
def Definition.Attached (d : Definition) (raw : RawSchema) : Prop :=
  ∃ v ∈ d.spec.versions, v.schema = some raw

/-- The numbers in all raw schemas come back from their texts. -/
def Definition.Stable (d : Definition) : Prop :=
  ∀ raw, d.Attached raw → raw.Stable

/-- Only the attached raw schemas are replaced. -/
theorem Definition.mapSchemas_congr {f g : RawSchema → RawSchema}
    (h : ∀ raw, d.Attached raw → f raw = g raw) : d.mapSchemas f = d.mapSchemas g := by
  have hversions : d.spec.versions.map (DefinitionVersion.mapSchema f)
      = d.spec.versions.map (DefinitionVersion.mapSchema g) := by
    refine List.map_congr_left fun v hv => ?_
    rw [DefinitionVersion.mapSchema, DefinitionVersion.mapSchema,
      Option.map_congr fun raw hraw => h raw ⟨v, hv, hraw⟩]
  rw [mapSchemas, mapSchemas, hversions]

/-- The echo of a stable definition is what is stored of it. -/
theorem Definition.echo_eq_stored (h : d.Stable) : d.echo = d.stored :=
  mapSchemas_congr fun raw hraw => RawSchema.echo_eq_stored (h raw hraw)

/-- A definition whose raw schemas echo themselves is its own echo. -/
theorem Definition.echo_eq_self (h : ∀ raw, d.Attached raw → raw.echo = raw) : d.echo = d := by
  have hself : DefinitionVersion.mapSchema id = id := by
    funext v
    rw [DefinitionVersion.mapSchema, Option.map_id]
    rfl
  rw [echo, mapSchemas_congr (g := id) h, mapSchemas, hself, List.map_id]

/-! ### Laws of the parts -/

/-- An embedded schema is read back as its echo. -/
theorem DefinitionVersion.validationForm_lawful (h : RawSchema.Settles depth G) :
    (validationForm : Codec RawSchema).Lawful (depth + 1)
      fun raw raw' => G raw ∧ raw.echo = raw' := by
  refine (record_lawful_succ (.required (RawSchema.codec_lawful h) .done)
    (by decide) (fun _ => rfl) (fun _ => rfl)).congr ?_
  simp

/-- It is written when it is the text of a value. -/
theorem DefinitionVersion.validationForm_writes : (validationForm : Codec RawSchema).Writes (n + 1)
    fun raw => ∃ w, raw.value? = some w ∧ w.nesting ≤ n := by
  refine (record_writes <| .required RawSchema.codec_writes .done).congr ?_
  simp

/-- A version is read back with its schema echoed. -/
theorem DefinitionVersion.form_lawful (h : RawSchema.Settles depth G) :
    (form : Codec DefinitionVersion).Lawful (depth + 2)
      fun v w => (∀ raw, v.schema = some raw → G raw) ∧ v.mapSchema RawSchema.echo = w := by
  refine (record_lawful_succ (.required text_lawful <| .required flag_lawful <|
    .required flag_lawful <| .listed (fun _ _ => PrinterColumn.form_lawful) <|
    .optional (validationForm_lawful h) record_neverNull .done)
    (by decide) (fun _ => rfl) (fun _ => rfl)).congr ?_
  rintro ⟨⟩ ⟨⟩
  simp [List.forall₂_eq_eq_eq, optionRel_and_map_iff, DefinitionVersion.mapSchema, and_left_comm]

/-- It is written when its schema is. -/
theorem DefinitionVersion.form_writes : (form : Codec DefinitionVersion).Writes (n + 3)
    fun v => ∀ raw, v.schema = some raw → ∃ w, raw.value? = some w ∧ w.nesting ≤ n + 1 := by
  refine (record_writes <| .required text_writes <| .required flag_writes <|
    .required flag_writes <| .listed PrinterColumn.form_writes <|
    .optional validationForm_writes .done).congr ?_
  simp

/-- The specification is read back with the schema of each version echoed. -/
theorem DefinitionSpec.form_lawful (h : RawSchema.Settles depth G) :
    (form : Codec DefinitionSpec).Lawful (depth + 4)
      fun s t => (∀ v ∈ s.versions, ∀ raw, v.schema = some raw → G raw)
        ∧ { s with versions := s.versions.map (DefinitionVersion.mapSchema RawSchema.echo) }
          = t := by
  have hversions := list_lawful_succ (DefinitionVersion.form_lawful h)
  refine (record_lawful_succ (.required text_lawful <| .required ResourceNames.form_lawful <|
    .optional ResourceNames.form_lawful record_neverNull <| .defaulted hversions .nil .done)
    (by decide) (fun _ => rfl) (fun _ => rfl)).congr ?_
  rintro ⟨⟩ ⟨⟩
  simp [optionRel_eq_iff, forall₂_and_map_iff, and_left_comm]

/-- It is written when all its versions are. -/
theorem DefinitionSpec.form_writes : (form : Codec DefinitionSpec).Writes (n + 5)
    fun s => ∀ v ∈ s.versions, ∀ raw, v.schema = some raw →
      ∃ w, raw.value? = some w ∧ w.nesting ≤ n + 1 := by
  refine (record_writes <| .required text_writes <| .required ResourceNames.form_writes <|
    .optional ResourceNames.form_writes <|
    .defaulted (list_writes DefinitionVersion.form_writes) .done).congr ?_
  simp

/-! ### Whole definitions -/

/-- The raw schemas of a definition are those of its versions. -/
theorem Definition.forall_attached_iff {P : RawSchema → Prop} :
    (∀ raw, d.Attached raw → P raw) ↔ ∀ v ∈ d.spec.versions, ∀ raw, v.schema = some raw → P raw :=
  ⟨fun h v hv raw hraw => h raw ⟨v, hv, hraw⟩, fun h raw ⟨v, hv, hraw⟩ => h v hv raw hraw⟩

/-- **A definition is read back as its echo.** -/
theorem Definition.form_lawful (h : RawSchema.Settles depth G) :
    jsonForm.Lawful (depth + 5)
      fun d d' => (∀ raw, d.Attached raw → G raw) ∧ d.echo = d' := by
  refine (record_lawful_succ (.defaulted text_lawful rfl <| .defaulted text_lawful rfl <|
    .required ObjectMeta.form_lawful <| .required (DefinitionSpec.form_lawful h) .done)
    (by decide) (fun _ => rfl) (fun _ => rfl)).congr ?_
  rintro ⟨⟩ ⟨⟩
  simp [forall_attached_iff, Definition.echo, mapSchemas, and_left_comm]

/-- **Raw schemas stand five levels below a definition.** -/
theorem Definition.form_writes : jsonForm.Writes (n + 6)
    fun d => ∀ raw, d.Attached raw → ∃ w, raw.value? = some w ∧ w.nesting ≤ n + 1 := by
  refine (record_writes <| .defaulted text_writes <| .defaulted text_writes <|
    .required ObjectMeta.form_writes <| .required DefinitionSpec.form_writes .done).congr ?_
  simp [forall_attached_iff]

/-- A definition can be written when the JSON reader accepts all raw schemas. -/
theorem Definition.exists_encode_iff : (∃ j, jsonForm.encode d = some j) ↔
    ∀ raw, d.Attached raw → ∃ w, raw.document.decode Tree.value = .ok w := by
  refine ⟨?_, ?_⟩
  · rintro ⟨j, hj⟩ raw hraw
    obtain ⟨w, hw, -⟩ := (form_writes d).mp ⟨j, hj, Nat.le_add_right _ 6⟩ raw hraw
    exact ⟨w, RawSchema.value?_eq_some_iff.mp hw⟩
  · intro h
    -- What the reader accepts nests no deeper than any document.
    have hwrites : ∀ raw, d.Attached raw → ∃ w, raw.value? = some w ∧ w.nesting ≤ 126 + 1 := by
      intro raw hraw
      obtain ⟨w, hw⟩ := h raw hraw
      have hvalue := RawSchema.value?_eq_some_iff.mpr hw
      exact ⟨w, hvalue, (RawSchema.canonical_of_value? hvalue).2⟩
    obtain ⟨j, hj, -⟩ := (form_writes d).mpr hwrites
    exact ⟨j, hj⟩

/-- Five levels of a manifest are taken before a raw schema begins. -/
theorem Definition.jsonForm_lawful (h : RawSchema.Settles 122 G) : jsonForm.Lawful maxDepth
    fun d d' => (∀ raw, d.Attached raw → G raw) ∧ d.echo = d' :=
  form_lawful h

/-- Raw schemas of a definition that is written within the limit can be embedded. -/
theorem Definition.fits_of_encode (hj : jsonForm.encode d = some j)
    (hnull : ∀ raw, d.Attached raw → raw.value? ≠ some .null) (hdepth : j.nesting ≤ maxDepth) :
    ∀ raw, d.Attached raw → raw.Fits 122 := by
  intro raw hraw
  obtain ⟨w, hw, hle⟩ := (form_writes (n := 121) d).mp ⟨j, hj, hdepth⟩ raw hraw
  refine ⟨w, hw, ?_, hle⟩
  rintro rfl
  exact hnull raw hraw hw

/-- What a definition is written as within the limit is read as the echo of the definition. -/
theorem Definition.read_encode (hfits : ∀ raw, d.Attached raw → raw.Fits 122)
    (hj : jsonForm.encode d = some j) (hdepth : j.nesting ≤ maxDepth) :
    jsonForm.read (.ofText j.compact) = .ok d.echo :=
  ((jsonForm_lawful (RawSchema.settles_fits (by decide))).read_texts ⟨hfits, rfl⟩ hj hdepth).1

/-- The raw schemas of a definition that was read are texts of embedded values. -/
theorem Definition.embedded_of_read {s : List Symbol} (hs : jsonForm.read (.ofSymbols s) = .ok d) :
    ∀ raw, d.Attached raw → raw.Embedded 122 := by
  have hsettles : RawSchema.Settles 122 (RawSchema.Embedded 122) :=
    RawSchema.settles_embedded (by decide)
  obtain ⟨_, hembedded, -⟩ := (jsonForm_lawful hsettles).settled_of_read hs
  exact hembedded

/-- **Writing and reading a definition.** It can be written when the JSON reader accepts every
raw schema that is attached to it. If none of these is `null` and the text does not nest too
deep, the text is read as the echo of the definition: when the numbers in its raw schemas come back
from their texts, as the definition with its raw schemas stored, and nothing else changed.
A definition that was read from a manifest has stored raw schemas already and none that is
`null`; it can be written, within the limit, and when the numbers in the values that it stores come
back, it reads back as it is. -/
theorem definition_round_trip (d : Definition) :
    ((∃ j, Definition.jsonForm.encode d = some j)
        ↔ ∀ raw, d.Attached raw → ∃ w, raw.document.decode Tree.value = .ok w)
      ∧ (∀ j, Definition.jsonForm.encode d = some j →
          (∀ raw, d.Attached raw → raw.value? ≠ some .null) → j.nesting ≤ maxDepth →
          Definition.jsonForm.read (.ofText j.compact) = .ok d.echo
            ∧ (d.Stable → Definition.jsonForm.read (.ofText j.compact) = .ok d.stored))
      ∧ ∀ s, Definition.jsonForm.read (.ofSymbols s) = .ok d →
          (∀ raw, d.Attached raw → ∃ w : Value, w.Canonical ∧ w ≠ .null ∧ raw = .ofValue w)
            ∧ ∃ j, Definition.jsonForm.encode d = some j ∧ j.nesting ≤ maxDepth
              ∧ Definition.jsonForm.read (.ofText j.compact) = .ok d.echo
              ∧ ((∀ w : Value, w.Canonical → d.Attached (.ofValue w) → w.Stable) →
                Definition.jsonForm.read (.ofText j.compact) = .ok d) := by
  refine ⟨Definition.exists_encode_iff, ?_, ?_⟩
  · -- Written and read again: every raw schema is echoed.
    intro j hj hnull hdepth
    have hread := Definition.read_encode (Definition.fits_of_encode hj hnull hdepth) hj hdepth
    refine ⟨hread, fun hstable => ?_⟩
    rw [hread, Definition.echo_eq_stored hstable]
  · -- Read first: the raw schemas are texts of canonical values, and those are stored as they are.
    intro s hs
    have hembedded := Definition.embedded_of_read hs
    have hfits : ∀ raw, d.Attached raw → raw.Fits 122 :=
      fun raw hraw => (hembedded raw hraw).fits (by decide)
    have hwrites : ∀ raw, d.Attached raw → ∃ w, raw.value? = some w ∧ w.nesting ≤ 121 + 1 := by
      intro raw hraw
      obtain ⟨w, hw, -, hle⟩ := hfits raw hraw
      exact ⟨w, hw, hle⟩
    obtain ⟨j, hj, hdepth⟩ := (Definition.form_writes d).mpr hwrites
    have hread := Definition.read_encode hfits hj hdepth
    refine ⟨fun raw hraw => ?_, j, hj, hdepth, hread, fun hstable => ?_⟩
    · obtain ⟨w, hcanonical, hne, -, heq⟩ := hembedded raw hraw
      exact ⟨w, hcanonical, hne, heq⟩
    · -- Stored texts of stable values are what comes back of them.
      rw [hread, Definition.echo_eq_self fun raw hraw => ?_]
      obtain ⟨w, hcanonical, -, hle, rfl⟩ := hembedded raw hraw
      exact RawSchema.echo_ofValue hcanonical (hle.trans (by decide)) (hstable w hcanonical hraw)

/-- A raw schema out of order, with a key that occurs twice. -/
def untidy : Value :=
  .object [("b", .array []), ("a", .number (.int 1)), ("b", .null)]

/-- A definition with this raw schema. -/
def untidyDefinition (raw : RawSchema) : Definition :=
  Definition.new "sizes.example.org" "example.org" { kind := "Size", plural := "sizes" }
    |>.withUid "7d1f" |>.withVersion { name := "v1", served := false, schema := some raw }

/-- There is one raw schema in it. -/
theorem untidyDefinition_attached {raw raw' : RawSchema}
    (h : (untidyDefinition raw).Attached raw') : raw' = raw := by
  obtain ⟨v, hv, hraw⟩ := h
  obtain rfl := List.mem_singleton.mp hv
  exact (Option.some.inj hraw).symm

/-- A definition with blanks and a repeated member in its schema is written, and read back with the
schema in order. -/
theorem untidyDefinition_round_trip :
    ∃ j, Definition.jsonForm.encode (untidyDefinition (.ofValue untidy)) = some j
      ∧ Definition.jsonForm.read (.ofText j.compact)
        = .ok (untidyDefinition (.ofText "\x7b\"a\":1,\"b\":null\x7d")) := by
  have hproper : untidy.Proper := by simp [untidy, Number.Proper, Number.fits]
  -- The schema is read with its members in order and the last of a repeated one.
  have hread : (RawSchema.ofValue untidy).document.decode Tree.value
      = .ok (.object [("a", .number (.int 1)), ("b", .null)]) := by
    rw [RawSchema.document_ofValue hproper, decode_document, value_tree (by decide)]
    rfl
  have hvalue := RawSchema.value?_eq_some_iff.mpr hread
  have hstored : (RawSchema.ofValue untidy).stored = .ofText "\x7b\"a\":1,\"b\":null\x7d" :=
    (RawSchema.stored_of_value? hvalue).trans (congrArg RawSchema.ofText (by decide))
  have hwrites : ∃ j, Definition.jsonForm.encode (untidyDefinition (.ofValue untidy)) = some j
      ∧ j.nesting ≤ 6 :=
    (Definition.form_writes (n := 0) _).mpr fun raw hraw =>
      ⟨_, untidyDefinition_attached hraw ▸ hvalue, by decide⟩
  obtain ⟨j, hj, hdepth⟩ := hwrites
  have hnull : ∀ raw, (untidyDefinition (.ofValue untidy)).Attached raw →
      raw.value? ≠ some .null := by
    intro raw hraw
    rw [untidyDefinition_attached hraw, hvalue]
    simp
  have hstable : (untidyDefinition (.ofValue untidy)).Stable := by
    intro raw hraw w hw
    rw [untidyDefinition_attached hraw, hvalue] at hw
    obtain rfl := Option.some.inj hw
    rfl
  have hback := ((definition_round_trip _).2.1 j hj hnull (hdepth.trans (by decide))).2 hstable
  rw [← hstored]
  exact ⟨j, hj, hback⟩

end CompositeCrd
