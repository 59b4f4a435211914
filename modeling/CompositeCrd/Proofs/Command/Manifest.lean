import CompositeCrd.Proofs.Command.Printing
import CompositeCrd.Proofs.Schema.Whole
import CompositeCrd.Proofs.Yaml.Reader

/-!
# Manifests in JSON

A manifest is read as YAML, of which JSON is a part, or almost. So there are two ways to a
definition that is written in JSON: the codec of definitions, and the reader of manifests. They
are described by one form, and its parts are read alike (`Definition.form_readAlike`). What is
left of the difference is in the characters of the document: if YAML admits them all
(`Yaml.passable`) and each number means the same in both (`Yaml.isFaithful`), a manifest is
loaded as the definition that JSON decodes, down to the bytes of its schemas, and rendering it
gives what is generated from that definition (`json_manifest_rendered`).

The difference is real. A manifest with a `-0` is loaded as another definition, and so is one with
a float that JSON does not read as the nearest one; and one with a pair of surrogates, as JSON
escapes a character outside the basic plane, is not loaded at all (`some_json_manifests_differ`).
-/

namespace CompositeCrd

open Json Json.Codec
open Yaml (Reader isFaithful passable)

variable {d : Definition} {config : Config} {request : RenderRequest} {text : String}
  {words : List String} {verbose : Bool}

/-! ### Definitions are read alike -/

/-- An embedded schema is read to its end. -/
theorem RawSchema.codec_thorough : codec.Thorough := by
  intro depth t raw h
  obtain ⟨v, hv, -⟩ := bind_eq_ok.mp h
  exact Tree.skip_of_value hv

/-- The records of a definition are read alike in both notations. -/
theorem OwnerReference.form_readAlike : (form : Codec OwnerReference).ReadAlike form :=
  record_readAlike <| .field text_readAlike <| .field text_readAlike <| .field text_readAlike <|
    .field text_readAlike <| .field (nullable_readAlike flag_readAlike) <|
    .field (nullable_readAlike flag_readAlike) .done

theorem ObjectMeta.form_readAlike : (form : Codec ObjectMeta).ReadAlike form :=
  record_readAlike <| .field text_readAlike <| .field (nullable_readAlike text_readAlike) <|
    .field (map_readAlike text_readAlike) <| .field (map_readAlike text_readAlike) <|
    .field (list_readAlike OwnerReference.form_readAlike) .done

theorem ResourceNames.form_readAlike : (form : Codec ResourceNames).ReadAlike form :=
  record_readAlike <| .field text_readAlike <| .field text_readAlike <| .field text_readAlike <|
    .field text_readAlike <| .field (list_readAlike text_readAlike) <|
    .field (list_readAlike text_readAlike) .done

theorem PrinterColumn.form_readAlike : (form : Codec PrinterColumn).ReadAlike form :=
  record_readAlike <| .field text_readAlike <| .field text_readAlike <| .field text_readAlike <|
    .field (nullable_readAlike text_readAlike) <| .field (nullable_readAlike text_readAlike) <|
    .field (nullable_readAlike int32_readAlike) .done

namespace DefinitionVersion

/-- A version is read to its end. -/
theorem form_thorough : (form : Codec DefinitionVersion).Thorough := by
  have hvalidation : (validationForm : Codec RawSchema).Thorough :=
    record_thorough ⟨RawSchema.codec_thorough, trivial⟩
  exact record_thorough ⟨text_thorough, flag_thorough, flag_thorough,
    list_thorough PrinterColumn.form_thorough, nullable_thorough hvalidation, trivial⟩

/-- It is read alike, with the schema it embeds. -/
theorem form_readAlike : (form : Codec DefinitionVersion).ReadAlike form := by
  have hvalidation : (validationForm : Codec RawSchema).ReadAlike validationForm :=
    record_readAlike <| .field RawSchema.codec_readAlike .done
  exact record_readAlike <| .field text_readAlike <| .field flag_readAlike <|
    .field flag_readAlike <| .field (list_readAlike PrinterColumn.form_readAlike) <|
    .field (nullable_readAlike hvalidation) .done

end DefinitionVersion

/-- The specification is read to its end. -/
theorem DefinitionSpec.form_thorough : (form : Codec DefinitionSpec).Thorough :=
  record_thorough ⟨text_thorough, ResourceNames.form_thorough,
    nullable_thorough ResourceNames.form_thorough, list_thorough DefinitionVersion.form_thorough,
    trivial⟩

/-- The specification is read alike. -/
theorem DefinitionSpec.form_readAlike : (form : Codec DefinitionSpec).ReadAlike form :=
  record_readAlike <| .field text_readAlike <| .field ResourceNames.form_readAlike <|
    .field (nullable_readAlike ResourceNames.form_readAlike) <|
    .field (list_readAlike DefinitionVersion.form_readAlike) .done

namespace Definition

/-- **A definition is read to its end.** -/
theorem form_thorough : (form : Codec Definition).Thorough :=
  record_thorough ⟨text_thorough, text_thorough, ObjectMeta.form_thorough,
    DefinitionSpec.form_thorough, trivial⟩

/-- **A definition is read alike** from a tree and from the node that mirrors it. -/
theorem form_readAlike : (form : Codec Definition).ReadAlike form :=
  record_readAlike <| .field text_readAlike <| .field text_readAlike <|
    .field ObjectMeta.form_readAlike <| .field DefinitionSpec.form_readAlike .done

/-- A passable manifest in JSON is the definition that it is decoded as. -/
theorem ofText?_of_read (hread : (form : Codec Definition).read (.ofText text) = .ok d)
    (hpassable : passable isFaithful text.toList = true) :
    Reader.ofText? form text = some d :=
  form_readAlike.ofText? form_thorough hread
    (bracketed_of_record (decode_eq_ok_iff.mp hread).1) hpassable

end Definition

/-! ### Rendering -/

/-- Rendering what a file is loaded as comes to what is generated from it, or to nothing. -/
theorem rendered_cases {t : FileTree} (hconfig : t.configIn request.config = .ok config)
    (hd : t.definitionIn request.input = .ok d) :
    (request.Possible config d ∧ ∃ crds,
      List.Forall₂ (fun variant crd => d.generate variant = .ok crd) (request.kept config d) crds
        ∧ request.rendered t = .ok (request.chosenFormat config, crds))
      ∨ ¬request.Possible config d ∧ ∃ e, request.rendered t = .error e := by
  rw [RenderRequest.rendered_eq hconfig hd]
  cases hcrds : request.crds config d with
  | ok crds =>
    exact .inl ⟨RenderRequest.exists_crds_iff_possible.mp ⟨crds, hcrds⟩, crds,
      RenderRequest.forall₂_crds hcrds, rfl⟩
  | error e =>
    refine .inr ⟨?_, e, rfl⟩
    rw [← RenderRequest.exists_crds_iff_possible, hcrds]
    simp

/-- **A manifest in JSON is loaded as the definition that it is decoded as**, and rendering it
gives what is generated from that definition: if the request is possible, the resources of the
variants that are kept, which are printed if they are not to be stored, and otherwise a failure.
-/
theorem json_manifest_rendered
    (hread : (Definition.form : Codec Definition).read (.ofText text) = .ok d)
    (hpassable : passable isFaithful text.toList = true) :
    Reader.ofText? Definition.form text = some d
      ∧ ∀ (s : Session) (request : RenderRequest) (config : Config),
        (s.tree.find? request.input).bind Entry.text = .ok text →
        s.tree.configIn request.config = .ok config →
        s.tree.definitionIn request.input = .ok d
          ∧ (request.Possible config d → ∃ crds,
            List.Forall₂ (fun variant crd => d.generate variant = .ok crd) (request.kept config d)
                crds
              ∧ request.rendered s.tree = .ok (request.chosenFormat config, crds)
              ∧ ∀ (words : List String) (verbose : Bool),
                Invocation.ofWords words = .ok { command := .render request, verbose } →
                request.output = none →
                ∃ out, Crd.renderAll (request.chosenFormat config) crds = some out
                  ∧ (s.carryOut words).1.code = 0
                  ∧ (s.carryOut words).2.answers = s.answers ++ out)
          ∧ (¬request.Possible config d → ∀ (words : List String) (verbose : Bool),
            Invocation.ofWords words = .ok { command := .render request, verbose } →
            (s.carryOut words).1.code = 1 ∧ (s.carryOut words).2.answers = s.answers) := by
  -- The text is loaded as what it is decoded as; the rest is what a command does with it.
  have hloaded := Definition.ofText?_of_read hread hpassable
  refine ⟨hloaded, fun s request config hfile hconfig => ?_⟩
  have hd : s.tree.definitionIn request.input = .ok d :=
    FileTree.definitionIn_eq_ok_iff.mpr ⟨text, hfile, hloaded⟩
  refine ⟨hd, ?_⟩
  obtain ⟨hpossible, crds, hcrds, hrendered⟩ | ⟨himpossible, e, hrendered⟩ :=
    rendered_cases hconfig hd
  · -- All variants are generated, so they are printed.
    refine ⟨fun _ => ⟨crds, hcrds, hrendered, fun words verbose hwords hprint => ?_⟩,
      fun h => absurd hpossible h⟩
    obtain ⟨out, hout⟩ := exists_renderAll (request.chosenFormat config) crds
    rw [Session.carryOut_render_ok hwords hprint hrendered hout]
    refine ⟨out, hout, rfl, ?_⟩
    rw [Session.printing_answers, Session.announcing_answers]
  · -- One of them fails, or there is no format, and nothing is printed.
    refine ⟨fun h => absurd h himpossible, fun _ words verbose hwords => ?_⟩
    rw [Session.carryOut_render_error hwords hrendered]
    exact ⟨rfl, rfl⟩

/-! ### Manifests to load -/

/-- A text in braces. -/
def braced (s : String) : String :=
  "\x7b" ++ s ++ "\x7d"

/-- The manifest of a definition with a schema, with tabs, and with spaces around colons. -/
def bigsManifest (schema : String) : String :=
  braced ("\"metadata\" : " ++ braced "\"name\": \"bigs.org\"" ++ ",\n\t\"spec\" : "
    ++ braced ("\"group\": \"org\", \"names\": "
      ++ braced "\"kind\": \"Big\", \"plural\":\t\"bigs\"" ++ ",\n\t\"versions\": ["
      ++ braced ("\"name\": \"v1\", \"served\": true, \"referenceable\": true, \"schema\": "
        ++ braced ("\"openAPIV3Schema\": " ++ schema)) ++ "]")) ++ "\n"

/-- The definition in that manifest, if the schema is stored like this. -/
def bigs (schema : String) : Definition :=
  (Definition.new "bigs.org" "org" { kind := "Big", plural := "bigs" }).withVersion
    { name := "v1", referenceable := true, schema := some (.ofText schema) }

/-- A schema that says something of `spec.size`. -/
def sizeSchema (keywords : String) : String :=
  braced ("\"properties\":" ++ braced ("\"spec\":" ++ braced ("\"properties\":"
    ++ braced ("\"size\":" ++ braced keywords))))

/-- A request for the composite resource of a manifest. -/
def bigsRequest : RenderRequest where
  input := "xrd.yaml"
  variants := [.composite]
  format := some .json

/-- A manifest with a decimal fraction is loaded and its resource definition printed. -/
theorem bigsManifest_printed :
    let text := bigsManifest (sizeSchema "\"type\":\"number\", \"default\":1.50")
    let d := bigs (sizeSchema "\"default\":1.5,\"type\":\"number\"")
    let words := ["render", "--input", "xrd.yaml", "--variant", "composite", "--format", "json"]
    ∃ crd out, d.generate .composite = .ok crd ∧ Crd.renderAll .json [crd] = some out
      ∧ ((Session.manifest text).carryOut words).1.code = 0
      ∧ ((Session.manifest text).carryOut words).2.answers = out := by
  intro text d words
  have hread : (Definition.form : Codec Definition).read (.ofText text) = .ok d := by
    rw [← toOption_eq_some, Document.ofText]
    simp only [text, bigsManifest, sizeSchema, braced, String.toList_append]
    decide +kernel
  -- Nothing in the text is read in two ways.
  have hpassable : passable isFaithful text.toList = true := by
    simp only [text, bigsManifest, sizeSchema, braced, String.toList_append]
    decide +kernel
  have hgenerated : (d.generate .composite).toOption.isSome = true := by
    decide +kernel
  obtain ⟨crd, hcrd⟩ := Option.isSome_iff_exists.mp hgenerated
  rw [toOption_eq_some] at hcrd
  have hpossible : bigsRequest.Possible {} d := by
    refine ⟨.inl ⟨rfl, rfl⟩, fun variant hvariant => ?_⟩
    obtain rfl := List.mem_singleton.mp hvariant
    exact ⟨crd, hcrd⟩
  obtain ⟨-, hrendered⟩ := json_manifest_rendered hread hpassable
  obtain ⟨-, hprinted, -⟩ := hrendered (.manifest text) bigsRequest {} (find?_manifest text) rfl
  obtain ⟨crds, hcrds, -, hrun⟩ := hprinted hpossible
  obtain ⟨out, hout, hcode, hanswers⟩ := hrun words false rfl rfl
  -- There is one definition for the one variant.
  change List.Forall₂ _ [Variant.composite] crds at hcrds
  rcases hcrds with _ | ⟨h, _ | _⟩
  obtain rfl := Except.ok.inj (hcrd.symm.trans h)
  exact ⟨crd, out, hcrd, hout, hcode, hanswers.trans String.empty_append⟩

/-- **Not every manifest in JSON is loaded as what it is**: a `-0` is the negative zero in JSON
and the integer zero in YAML, YAML reads `3e49` as the nearest float and JSON does not, and YAML
takes each half of a pair of surrogates for a character, which it is not. -/
theorem some_json_manifests_differ :
    let zero := bigsManifest (sizeSchema "\"default\":-0")
    let bound := bigsManifest (sizeSchema "\"maximum\":3e49")
    let clef := bigsManifest (sizeSchema "\"description\":\"\\ud834\\udd1e\"")
    ((Definition.form : Codec Definition).read (.ofText zero)
        = .ok (bigs (sizeSchema "\"default\":-0.0"))
      ∧ Reader.ofText? Definition.form zero = some (bigs (sizeSchema "\"default\":0"))
      ∧ bigs (sizeSchema "\"default\":-0.0") ≠ bigs (sizeSchema "\"default\":0"))
    ∧ ((Definition.form : Codec Definition).read (.ofText bound)
        = .ok (bigs (sizeSchema "\"maximum\":2.9999999999999997e+49"))
      ∧ Reader.ofText? Definition.form bound = some (bigs (sizeSchema "\"maximum\":3e+49"))
      ∧ bigs (sizeSchema "\"maximum\":2.9999999999999997e+49")
        ≠ bigs (sizeSchema "\"maximum\":3e+49"))
    ∧ (Definition.form : Codec Definition).read (.ofText clef)
        = .ok (bigs (sizeSchema "\"description\":\"𝄞\""))
      ∧ Reader.ofText? Definition.form clef = none := by
  intro zero bound clef
  -- Each text is read in both ways; only for the first two do both succeed.
  refine ⟨⟨?_, ?_, by decide +kernel⟩, ⟨?_, ?_, by decide +kernel⟩, ?_, ?_⟩
  · rw [← toOption_eq_some, Document.ofText]
    simp only [zero, bigsManifest, sizeSchema, braced, String.toList_append]
    decide +kernel
  · rw [Reader.ofText?]
    simp only [zero, bigsManifest, sizeSchema, braced, String.toList_append]
    decide +kernel
  · rw [← toOption_eq_some, Document.ofText]
    simp only [bound, bigsManifest, sizeSchema, braced, String.toList_append]
    decide +kernel
  · rw [Reader.ofText?]
    simp only [bound, bigsManifest, sizeSchema, braced, String.toList_append]
    decide +kernel
  · rw [← toOption_eq_some, Document.ofText]
    simp only [clef, bigsManifest, sizeSchema, braced, String.toList_append]
    decide +kernel
  · rw [Reader.ofText?]
    simp only [clef, bigsManifest, sizeSchema, braced, String.toList_append]
    decide +kernel

end CompositeCrd
