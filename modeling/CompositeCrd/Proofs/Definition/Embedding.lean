import CompositeCrd.Proofs.Crd.Image
import CompositeCrd.Proofs.Crd.RoundTrip
import CompositeCrd.Proofs.Definition.RoundTrip
import CompositeCrd.Proofs.Schema.Spelling

/-!
# Raw schemas and their meaning in manifests

What a raw schema contributes to generation is a matter of the value that its bytes write. Texts
of one value contribute the same, however they are laid out (`RawSchema.SameValue`).

A raw schema that is sent through a manifest is read twice more than one that is not: once with
the manifest, and once from the text that is stored. Each time the numbers in it come back from
their texts, and everything else stays, even if the raw schema repeats keys
(`specProperties_echo`). So the stored text contributes what the raw schema does when these numbers
come back as they are, and other numbers when they do not (`boundedSize_moves`). What is generated
changes in the same places, and nowhere else (`Definition.generate_echo`).
-/

namespace CompositeCrd

open Json

variable {raw raw' : RawSchema} {v v' w : Value} {authored : PropertyTree} {s : Option Schema}
  {d d' : Definition} {variant : Variant} {crd : Crd}

/-! ### Texts of one value -/

/-- The bytes are a text of the value. -/
def RawSchema.Spells (raw : RawSchema) (v : Value) : Prop :=
  ∃ r, v.Spells (Utf8.symbols raw.bytes) r ∧ Document.skipSpace r = []

/-- **Both are texts of one value**, which repeats no key: they may differ in white space, in
escapes and in the order of members. -/
def RawSchema.SameValue (raw raw' : RawSchema) : Prop :=
  ∃ v v', raw.Spells v ∧ raw'.Spells v' ∧ v.DistinctKeys ∧ v'.DistinctKeys ∧ v.sorted = v'.sorted

/-- That two raw schemas spell one value goes both ways. -/
theorem RawSchema.SameValue.symm (h : raw.SameValue raw') : raw'.SameValue raw := by
  obtain ⟨v, v', hv, hv', hkeys, hkeys', heq⟩ := h
  exact ⟨v', v, hv', hv, hkeys', hkeys, heq.symm⟩

/-- A raw schema that spells a value is read as the document of the value. -/
theorem RawSchema.Spells.document_eq (h : raw.Spells v) : raw.document = v.document := by
  obtain ⟨r, hv, hr⟩ := h
  exact ofSymbols_of_spells hv hr

theorem RawSchema.Spells.proper (h : raw.Spells v) : v.tree.Proper :=
  (congrArg (·.root.Proper) h.document_eq).mp (ofSymbols_proper _)

/-- The text of a value is a text of what comes back of it. -/
theorem RawSchema.Spells.ofValue (h : w.Proper) : (RawSchema.ofValue w).Spells w.echo := by
  refine ⟨[], ?_, rfl⟩
  rw [RawSchema.ofValue, ofText, Utf8.symbols_encode, Value.compact, String.toList_ofList]
  exact h.spells_write

theorem RawSchema.Spells.node?_eq (h : raw.Spells v) :
    raw.node? = v.tree.optional (Schema.ofTree maxDepth) := by
  rw [node?, h.document_eq, decode_document]

theorem RawSchema.SameValue.node? (h : raw.SameValue raw') (hs : raw.node? = .ok s) :
    raw'.node? = .ok s := by
  obtain ⟨v, v', hv, hv', hkeys, hkeys', heq⟩ := h
  rw [hv.node?_eq] at hs
  rw [hv'.node?_eq]
  -- `null` is read as no node, so it is set apart.
  by_cases hnull : v = .null
  · subst hnull
    obtain rfl : v' = .null := sorted_eq_null (heq.symm.trans Value.Canonical.null.sorted_eq)
    exact hs
  · have hnull' : v' ≠ .null := by
      rintro rfl
      exact hnull (sorted_eq_null (heq.trans Value.Canonical.null.sorted_eq))
    rw [optional_of_ne _ hnull] at hs
    obtain ⟨n, hn, rfl⟩ := map_eq_ok.mp hs
    rw [optional_of_ne _ hnull',
      Schema.ofTree_of_sorted_eq hv.proper hv'.proper hkeys' heq hn]
    rfl

/-- **Texts of one value contribute the same.** -/
theorem RawSchema.SameValue.specProperties_iff (h : raw.SameValue raw') (authored : PropertyTree) :
    specProperties (some raw') = .ok authored ↔ specProperties (some raw) = .ok authored := by
  rw [specProperties_some, specProperties_some, map_eq_ok, map_eq_ok]
  exact exists_congr fun s => and_congr_left fun _ => ⟨h.symm.node?, h.node?⟩

/-- The one raw schema is the other laid out anew, or as it is, or there is none. -/
abbrev RawSchema.Respelled : Option RawSchema → Option RawSchema → Prop :=
  Option.Rel fun raw raw' => raw = raw' ∨ raw.SameValue raw'

/-- Respelling goes both ways. -/
theorem RawSchema.Respelled.symm {a b : Option RawSchema} (h : Respelled a b) :
    Respelled b a := by
  obtain ⟨rfl | h⟩ | _ := h
  · exact .some (.inl rfl)
  · exact .some (.inr h.symm)
  · exact .none

/-- What is authored does not depend on the spelling. -/
theorem RawSchema.Respelled.specProperties_iff {a b : Option RawSchema} (h : Respelled a b) :
    specProperties b = .ok authored ↔ specProperties a = .ok authored := by
  obtain ⟨rfl | h⟩ | _ := h
  · exact Iff.rfl
  · exact h.specProperties_iff authored
  · exact Iff.rfl

/-- **The one definition is the other with raw schemas laid out anew.** -/
structure Definition.Respelled (d d' : Definition) : Prop where
  /-- Nothing but the versions may differ. -/
  rest : d' = { d with spec.versions := d'.spec.versions }
  /-- Of a version, nothing but the raw schema may differ. -/
  versions : List.Forall₂ (fun v v' : DefinitionVersion =>
    v' = { v with schema := v'.schema } ∧ RawSchema.Respelled v.schema v'.schema)
      d.spec.versions d'.spec.versions

/-- Respelling the schemas of a definition goes both ways. -/
theorem Definition.Respelled.symm (h : d.Respelled d') : d'.Respelled d where
  rest := by rw [h.rest]
  versions := h.versions.flip.imp fun v v' ⟨heq, hschema⟩ => ⟨by rw [heq], hschema.symm⟩

/-- A respelled definition has the same sources of its variants. -/
theorem Definition.Respelled.sameSource (h : d.Respelled d') (variant : Variant) :
    d.SameSource variant d' := by
  have hversions : List.Forall₂ DefinitionVersion.SameSource d.spec.versions d'.spec.versions := by
    refine h.versions.imp fun v v' ⟨heq, hschema⟩ => ?_
    exact ⟨by rw [heq], by rw [heq], by rw [heq], by rw [heq], fun _ => hschema.specProperties_iff⟩
  have hnames : d'.declaredNames variant = d.declaredNames variant := by
    rw [h.rest]
    cases variant <;> rfl
  exact ⟨by rw [h.rest], by rw [h.rest], by rw [h.rest], by rw [h.rest], by rw [h.rest], hnames,
    hversions⟩

/-- A definition with raw schemas laid out anew generates the same. -/
theorem Definition.Respelled.generate (h : d.Respelled d') (hcrd : d.generate variant = .ok crd) :
    d'.generate variant = .ok crd := by
  have hid : ∃ id, d'.identity variant = .ok id := by
    refine exists_identity_of_eq (d := d) (by rw [h.rest]) (fun _ => by rw [h.rest]) ?_
    exact (exists_generate_iff.mp ⟨crd, hcrd⟩).1
  exact (h.sameSource variant).generate_eq hid hcrd

/-! ### Stored texts -/

/-- The text of a value is read as the node that what comes back of the value is read as. -/
theorem RawSchema.node?_ofValue (hw : w.Proper) (hdepth : w.nesting ≤ maxDepth)
    (h : w.tree.optional (Schema.ofTree maxDepth) = .ok s) :
    (RawSchema.ofValue w).node? = .ok (s.map Schema.echo) := by
  rw [node?, document_ofValue hw, decode_document]
  exact Schema.optional_echo rfl (fun n _ hn => ⟨_, Schema.ofTree_echo hdepth hn, rfl⟩) h

/-- **A raw schema that is read has a value, and this is read as the same node.** -/
theorem RawSchema.exists_value_of_node? (h : raw.node? = .ok s) :
    ∃ w, raw.value? = some w ∧ w.tree.optional (Schema.ofTree maxDepth) = .ok s := by
  obtain ⟨hread, hended⟩ := decode_eq_ok_iff.mp h
  have hnode := (Schema.Tree.rereads (t := raw.document.root) (ofSymbols_proper _)).node maxDepth
  obtain ⟨w, hw, hreread⟩ :=
    Schema.ReadsAlike.optional (F := fun _ => Schema.ofTree maxDepth) hnode hread
  exact ⟨w, value?_eq_some_iff.mpr (decode_eq_ok_iff.mpr ⟨hw, hended⟩), hreread⟩

/-- The stored text of a raw schema is read as the echo of the node of the raw schema. -/
theorem RawSchema.node?_stored (hw : raw.value? = some w) (h : raw.node? = .ok s) :
    (RawSchema.ofValue w).node? = .ok (s.map Schema.echo) := by
  obtain ⟨w', hw', hreread⟩ := exists_value_of_node? h
  obtain rfl := Option.some.inj (hw.symm.trans hw')
  obtain ⟨hcanonical, hdepth⟩ := canonical_of_value? hw
  exact node?_ofValue hcanonical.proper hdepth hreread

/-- What a manifest gives back of a raw schema is read as the echo of this echo. -/
theorem RawSchema.node?_echo (hw : raw.value? = some w) (h : raw.node? = .ok s) :
    (RawSchema.ofValue w.echo).node? = .ok (s.map fun n => n.echo.echo) := by
  obtain ⟨w', hw', hreread⟩ := exists_value_of_node? h
  obtain rfl := Option.some.inj (hw.symm.trans hw')
  obtain ⟨hcanonical, hdepth⟩ := canonical_of_value? hw
  have hecho : w.echo.tree.optional (Schema.ofTree maxDepth) = .ok (s.map Schema.echo) :=
    Schema.optional_echo rfl (fun n _ hn => ⟨_, Schema.ofTree_echo hdepth hn, rfl⟩) hreread
  have hnode := node?_ofValue hcanonical.echo.proper ((Value.nesting_echo w).trans_le hdepth) hecho
  rwa [Option.map_map] at hnode

/-- What comes back of a node has what comes back of the properties. -/
theorem authoredProperties_echo (s : Option Schema) :
    authoredProperties (s.map Schema.echo) = Schema.echoProperties (authoredProperties s) := by
  cases s with
  | none => rfl
  | some s =>
    have hspec : Keyed.find? "spec" s.echo.properties
        = (Keyed.find? "spec" s.properties).map Schema.echo := by
      rw [Schema.properties_echo, Keyed.find?_map]
    rw [authoredProperties, authoredProperties, Option.map_some, Option.bind_some, hspec,
      Option.bind_some]
    cases Keyed.find? "spec" s.properties with
    | none => rfl
    | some spec =>
      rw [Option.map_some, Option.map_some, Option.map_some, Option.getD_some, Option.getD_some,
        Schema.properties_echo, Schema.echoProperties_eq]

/-- The stored text of a raw schema contributes what comes back of the properties. -/
theorem specProperties_stored (hw : raw.value? = some w)
    (h : specProperties (some raw) = .ok authored) :
    specProperties (some (.ofValue w)) = .ok (Schema.echoProperties authored) := by
  rw [specProperties_some] at h
  obtain ⟨s, hs, rfl⟩ := map_eq_ok.mp h
  rw [specProperties_some, RawSchema.node?_stored hw hs, ← authoredProperties_echo]
  rfl

/-- **What a manifest gives back of a raw schema contributes what comes back of the properties
when they come back twice.** -/
theorem specProperties_echo (hw : raw.value? = some w)
    (h : specProperties (some raw) = .ok authored) :
    specProperties (some (.ofValue w.echo))
      = .ok (Schema.echoProperties (Schema.echoProperties authored)) := by
  rw [specProperties_some] at h
  obtain ⟨s, hs, rfl⟩ := map_eq_ok.mp h
  rw [specProperties_some, RawSchema.node?_echo hw hs, ← authoredProperties_echo,
    ← authoredProperties_echo, Option.map_map]
  rfl

/-- If the numbers of a raw schema come back, so do the properties that it contributes. -/
theorem echoProperties_eq_of_stable (hstable : raw.Stable)
    (h : specProperties (some raw) = .ok authored) :
    Schema.echoProperties authored = authored := by
  rw [specProperties_some] at h
  obtain ⟨s, hs, rfl⟩ := map_eq_ok.mp h
  obtain ⟨w, hw, hreread⟩ := RawSchema.exists_value_of_node? hs
  have hself : w.echo = w := hstable w hw
  have hdepth := (RawSchema.canonical_of_value? hw).2
  -- The value is read as the node, and as the echo of the node.
  have hecho : w.echo.tree.optional (Schema.ofTree maxDepth) = .ok (s.map Schema.echo) :=
    Schema.optional_echo rfl (fun n _ hn => ⟨_, Schema.ofTree_echo hdepth hn, rfl⟩) hreread
  rw [hself, hreread] at hecho
  rw [← authoredProperties_echo, ← Except.ok.inj hecho]

/-! ### Generation from what comes back -/

namespace Schema

/-- Echoing goes through setting a property. -/
theorem withProperty_echo (s n : Schema) (name : String) :
    (s.withProperty name n).echo = s.echo.withProperty name n.echo := by
  obtain ⟨⟩ := s
  rw [withProperty, withProperty, echo, echo, echoProperties_eq, echoProperties_eq,
    Keyed.map_insert]

/-- What comes back of an overlay is the overlay of what comes back. -/
theorem overlay_echo (target : Schema) (layer : PropertyTree) (under : String) :
    (target.overlay layer under).echo = target.echo.overlay (echoProperties layer) under := by
  have hobject : object.echo = object := rfl
  -- The property that the layer is laid over is there or it is not, with its numbers or without.
  have hunder : (Keyed.find? under target.echo.properties).getD object
      = ((Keyed.find? under target.properties).getD object).echo := by
    rw [properties_echo, Keyed.find?_map]
    cases Keyed.find? under target.properties with
    | none => exact hobject.symm
    | some n => rfl
  have hnode : ∀ n : Schema, ({ n with properties := Keyed.overlay n.properties layer }).echo
      = { n.echo with properties := Keyed.overlay n.echo.properties (echoProperties layer) } := by
    rintro ⟨⟩
    rw [echo, echo, echoProperties_eq, echoProperties_eq, echoProperties_eq, Keyed.map_overlay]
  rw [overlay, overlay, withProperty_echo, hunder, hnode]

/-- **What comes back of a generated schema is generated from what comes back** of the properties
that the author gave: the standard properties have no numbers. -/
theorem assemble_echo (variant : Variant) (authored : PropertyTree) :
    (assemble variant authored).echo = assemble variant (echoProperties authored) := by
  have hstandard : echoProperties variant.specProperties = variant.specProperties := by
    cases variant <;> rfl
  rw [assemble, overlay_echo, overlay_echo, overlay_echo, hstandard]
  rfl

end Schema

/-- A version whose raw schema came back is projected to the version with a schema that came back
twice. -/
theorem DefinitionVersion.generate_echo {v : DefinitionVersion} (h : v.Decodes)
    (variant : Variant) : (v.mapSchema RawSchema.echo).generate variant
      = (v.generate variant).map fun w => w.echo.echo := by
  obtain ⟨authored, hauthored⟩ := exists_specProperties_iff.mpr h
  have hecho : specProperties (v.mapSchema RawSchema.echo).schema
      = .ok (Schema.echoProperties (Schema.echoProperties authored)) := by
    cases hschema : v.schema with
    -- Without a schema there is nothing authored.
    | none =>
      obtain rfl : [] = authored := Except.ok.inj (by rwa [hschema] at hauthored)
      rw [mapSchema, hschema]
      rfl
    | some raw =>
      rw [hschema] at hauthored
      obtain ⟨s, hs⟩ := h raw hschema
      obtain ⟨w, hw, -⟩ := RawSchema.exists_value_of_node? hs
      rw [mapSchema, hschema, Option.map_some, RawSchema.echo_of_value? hw]
      exact specProperties_echo hw hauthored
  -- Both sides are generated now; the assembled schemas echo part by part.
  rw [generateVersion_eq_ok_iff.mpr ⟨authored, hauthored, rfl⟩]
  refine generateVersion_eq_ok_iff.mpr ⟨_, hecho, ?_⟩
  simp only [CrdVersion.echo, project, Schema.assemble_echo, mapSchema]

/-- **What is generated from a definition that came back** is what is generated from the definition
itself, with what comes back twice of its schemas. Either both fail, on the same names, or none
does. -/
theorem Definition.generate_echo (h : ∀ v ∈ d.spec.versions, v.Decodes) (variant : Variant) :
    d.echo.generate variant = (d.generate variant).map fun crd => crd.echo.echo := by
  -- The versions echo one by one, and what is not in a version is not echoed.
  have hversions : d.echo.spec.versions.mapM (DefinitionVersion.generate variant)
      = (d.spec.versions.mapM (DefinitionVersion.generate variant)).map
        (List.map fun w => w.echo.echo) := by
    rw [echo, mapSchemas, List.mapM_map, ← mapM_map_right]
    exact mapM_congr fun v hv => DefinitionVersion.generate_echo (h v hv) variant
  have hid : d.echo.identity variant = d.identity variant := by
    cases variant <;> rfl
  rw [generate, generate, hversions, hid]
  cases d.identity variant with
  | error e => rfl
  | ok id =>
    cases d.spec.versions.mapM (DefinitionVersion.generate variant) with
    | error e => rfl
    | ok versions =>
      refine congrArg Except.ok ?_
      simp only [Crd.echo, List.map_map]
      rfl

/-- What is generated from raw schemas whose numbers come back comes back itself. -/
theorem Crd.echo_eq_of_generate (hstable : d.Stable) (h : d.generate variant = .ok crd) :
    crd.echo = crd := by
  have hversions : crd.spec.versions.map CrdVersion.echo = crd.spec.versions.map id := by
    refine List.map_congr_left fun w hw => ?_
    obtain ⟨v, hv, hgen⟩ := exists_of_forall₂ (forall₂_versions h) hw
    obtain ⟨authored, hauthored, rfl⟩ := generateVersion_eq_ok_iff.mp hgen
    have hself : Schema.echoProperties authored = authored := by
      cases hschema : v.schema with
      | none =>
        obtain rfl : [] = authored := Except.ok.inj (by rwa [hschema] at hauthored)
        rfl
      | some raw =>
        rw [hschema] at hauthored
        exact echoProperties_eq_of_stable (hstable raw ⟨v, hv, hschema⟩) hauthored
    rw [CrdVersion.echo, DefinitionVersion.project, Schema.assemble_echo, hself]
    rfl
  rw [Crd.echo, hversions, List.map_id]

/-! ### Manifests -/

/-- An accepted raw schema is written as its value, and the text of that reads back as the text of
what comes back of the value, unless it is `null`. -/
theorem RawSchema.read_encode (hw : raw.value? = some w) (hne : w ≠ .null) :
    codec.read (.ofText w.compact) = .ok (.ofValue w.echo) := by
  have hnesting := (canonical_of_value? hw).2
  have hfits : raw.Fits maxDepth := ⟨w, hw, hne, hnesting⟩
  rw [← echo_of_value? hw]
  exact ((codec_lawful (settles_fits le_rfl)).read_texts ⟨hfits, rfl⟩ hw hnesting).1

/-- A definition that generates something can be written. -/
theorem Definition.exists_encode_of_decodes (h : ∀ v ∈ d.spec.versions, v.Decodes) :
    ∃ j, jsonForm.encode d = some j := by
  refine exists_encode_iff.mpr ?_
  rintro raw ⟨v, hv, hraw⟩
  obtain ⟨s, hs⟩ := h v hv raw hraw
  obtain ⟨w, hw, -⟩ := RawSchema.exists_value_of_node? hs
  exact ⟨w, RawSchema.value?_eq_some_iff.mp hw⟩

/-- **Raw schemas keep their meaning in manifests, as far as numbers do.** Texts of one value
contribute the same, and a text that the JSON reader rejects contributes nothing; so definitions
whose raw schemas are laid out differently generate the same.

What is stored of an accepted raw schema is accepted, even if the raw schema repeats keys, and so
is what a manifest gives back of it if it is not `null`. They contribute what comes back of its
properties, once and twice, which are the same properties if the numbers of the raw schema come
back. So a definition that generates something can be written to a manifest, and what is read from
the manifest, if it does not nest too deep, generates what comes back of the same, in both variants:
if the numbers in its raw schemas come back, it generates the same. -/
theorem embedding_keeps_meaning (raw : RawSchema) (d : Definition) :
    (∀ raw', raw.SameValue raw' → ∀ authored,
        specProperties (some raw') = .ok authored ↔ specProperties (some raw) = .ok authored)
      ∧ (raw.value? = none → ∀ authored, specProperties (some raw) ≠ .ok authored)
      ∧ (∀ d', d.Respelled d' → ∀ variant crd,
          d'.generate variant = .ok crd ↔ d.generate variant = .ok crd)
      ∧ (∀ authored, specProperties (some raw) = .ok authored →
          ∃ w, w.Canonical ∧ RawSchema.codec.encode raw = some w
            ∧ specProperties (some (.ofValue w)) = .ok (Schema.echoProperties authored)
            ∧ specProperties (some (.ofValue w.echo))
              = .ok (Schema.echoProperties (Schema.echoProperties authored))
            ∧ (raw.value? ≠ some .null →
              RawSchema.codec.read (.ofText w.compact) = .ok (.ofValue w.echo))
            ∧ (w.Stable → w.echo = w ∧ Schema.echoProperties authored = authored))
      ∧ ∀ variant crd, d.generate variant = .ok crd →
          (∀ raw, d.Attached raw → raw.value? ≠ some .null) →
          ∃ j, Definition.jsonForm.encode d = some j
            ∧ (j.nesting ≤ maxDepth → ∃ d', Definition.jsonForm.read (.ofText j.compact) = .ok d'
              ∧ (∀ variant, d'.generate variant
                = (d.generate variant).map fun crd => crd.echo.echo)
              ∧ (d.Stable → ∀ variant, d'.generate variant = d.generate variant)) := by
  refine ⟨fun raw' h => h.specProperties_iff, ?_, ?_, ?_, ?_⟩
  · -- What is not the text of a value has no property tree.
    intro hnone authored h
    rw [specProperties_some] at h
    obtain ⟨s, hs, -⟩ := map_eq_ok.mp h
    obtain ⟨w, hw, -⟩ := RawSchema.exists_value_of_node? hs
    exact absurd (hnone.symm.trans hw) (by simp)
  · intro d' h variant crd
    exact ⟨h.symm.generate, h.generate⟩
  · -- The value that is stored, read again once and twice.
    intro authored h
    obtain ⟨s, hs, -⟩ := map_eq_ok.mp (specProperties_some raw ▸ h)
    obtain ⟨w, hw, -⟩ := RawSchema.exists_value_of_node? hs
    refine ⟨w, (RawSchema.canonical_of_value? hw).1, hw, specProperties_stored hw h,
      specProperties_echo hw h, fun hnull => ?_, fun hstable => ⟨hstable, ?_⟩⟩
    · exact RawSchema.read_encode hw fun heq => hnull (heq ▸ hw)
    · refine echoProperties_eq_of_stable (fun w' hw' => ?_) h
      exact Option.some.inj (hw.symm.trans hw') ▸ hstable
  · -- A definition that generates has schemas that decode, so it can be written and read.
    intro variant crd hcrd hnull
    have hdecodes := (exists_generate_iff.mp ⟨crd, hcrd⟩).2
    obtain ⟨j, hj⟩ := Definition.exists_encode_of_decodes hdecodes
    refine ⟨j, hj, fun hdepth => ⟨d.echo, ?_, Definition.generate_echo hdecodes, ?_⟩⟩
    · exact Definition.read_encode (Definition.fits_of_encode hj hnull hdepth) hj hdepth
    · intro hstable variant
      rw [Definition.generate_echo hdecodes]
      cases hcrd : d.generate variant with
      | error e => rfl
      | ok crd =>
        have hself := Crd.echo_eq_of_generate hstable hcrd
        exact congrArg Except.ok ((congrArg Crd.echo hself).trans hself)

/-- A schema that gives `spec` these properties. -/
def specifying (entries : List (String × Value)) : Value :=
  .object [("properties", .object [("spec", .object [("properties", .object entries)])])]

/-- A titled size. -/
def titledSize : Value :=
  specifying [("size", .object [("type", .string "string"), ("title", .string "Size")])]

/-- The same size, with its keywords in the other order. -/
def titledSize' : Value :=
  specifying [("size", .object [("title", .string "Size"), ("type", .string "string")])]

/-- The size behind one that it replaces. -/
def sizeReplaced : Value :=
  specifying [("size", .object [("type", .string "integer")]),
    ("size", .object [("type", .string "string"), ("title", .string "Size")])]

/-- A schema spelled with its members in two orders has one property tree, and a definition that
embeds it is read back and generates the same. -/
theorem titledSize_keeps_meaning :
    specProperties (some (.ofValue titledSize')) = specProperties (some (.ofValue titledSize))
      ∧ ∃ j d' crd, Definition.jsonForm.encode (untidyDefinition (.ofValue sizeReplaced)) = some j
        ∧ Definition.jsonForm.read (.ofText j.compact) = .ok d'
        ∧ (untidyDefinition (.ofValue sizeReplaced)).generate .composite = .ok crd
        ∧ d'.generate .composite = .ok crd := by
  have hspells : (RawSchema.ofValue titledSize).Spells titledSize :=
    .ofValue (by simp [titledSize, specifying])
  have hspells' : (RawSchema.ofValue titledSize').Spells titledSize' :=
    .ofValue (by simp [titledSize', specifying])
  have hreplaced : (RawSchema.ofValue sizeReplaced).Spells sizeReplaced :=
    .ofValue (by simp [sizeReplaced, specifying])
  refine ⟨?_, ?_⟩
  · have hsame : (RawSchema.ofValue titledSize).SameValue (.ofValue titledSize') :=
      ⟨_, _, hspells, hspells', by simp [titledSize, specifying, Keyed.keys],
        by simp [titledSize', specifying, Keyed.keys], rfl⟩
    have hread : ∃ authored, specProperties (some (.ofValue titledSize)) = .ok authored := by
      rw [specProperties_some, hspells.node?_eq]
      exact ⟨_, rfl⟩
    obtain ⟨authored, hauthored⟩ := hread
    rw [hauthored]
    exact ((embedding_keeps_meaning _ (untidyDefinition (.ofValue titledSize))).1 _ hsame
      authored).mpr hauthored
  · have hgenerate : ∃ crd, (untidyDefinition (.ofValue sizeReplaced)).generate .composite
        = .ok crd := by
      refine exists_generate_iff.mpr ⟨⟨_, rfl⟩, fun v hv raw hraw => ?_⟩
      rw [untidyDefinition_attached ⟨v, hv, hraw⟩, hreplaced.node?_eq]
      exact ⟨_, rfl⟩
    have hvalue : (RawSchema.ofValue sizeReplaced).value? = some titledSize' := by
      rw [RawSchema.value?_eq_some_iff, hreplaced.document_eq, decode_document,
        value_tree (by decide)]
      rfl
    have hnull : ∀ raw, (untidyDefinition (.ofValue sizeReplaced)).Attached raw →
        raw.value? ≠ some .null := by
      intro raw hraw
      rw [untidyDefinition_attached hraw, hvalue]
      simp [titledSize', specifying]
    obtain ⟨crd, hcrd⟩ := hgenerate
    obtain ⟨j, hj, hback⟩ := (embedding_keeps_meaning (.ofValue sizeReplaced)
      (untidyDefinition (.ofValue sizeReplaced))).2.2.2.2 _ crd hcrd hnull
    -- A value of four levels stands five levels below the definition.
    have hwrites : ∃ j, Definition.jsonForm.encode (untidyDefinition (.ofValue sizeReplaced))
        = some j ∧ j.nesting ≤ 10 :=
      (Definition.form_writes (n := 4) _).mpr fun raw hraw =>
        ⟨_, untidyDefinition_attached hraw ▸ hvalue, by decide⟩
    obtain ⟨j', hj', hdepth⟩ := hwrites
    obtain rfl := Option.some.inj (hj.symm.trans hj')
    obtain ⟨d', hread, -, hsame⟩ := hback (hdepth.trans (by decide))
    -- There are no doubles in the schema, so it is its own echo.
    have hstable : (untidyDefinition (.ofValue sizeReplaced)).Stable := by
      intro raw hraw w hw
      rw [untidyDefinition_attached hraw, hvalue] at hw
      obtain rfl := Option.some.inj hw
      simp [titledSize', specifying]
    exact ⟨j, d', crd, hj, hread, hcrd, (hsame hstable _).trans hcrd⟩

/-! ### A number that moves -/

/-- A schema with an upper bound for the size. -/
def boundedSize (n : Number) : Value :=
  specifying [("size", .object [("maximum", .number n)])]

/-- What such a schema contributes. -/
def boundedTree (n : Number) : PropertyTree :=
  [("size", { extra := [("maximum", .number n)] })]

/-- The float that is so many units of the last place below the one nearest to `3e+49`. -/
def bound (below : Nat) : Number :=
  .float ⟨false, 0x1486de8697abec - below, 112⟩

/-- The property tree of a schema with a bound holds the bound as it is read. -/
theorem specProperties_boundedSize {n : Number} (hn : n.Proper) :
    specProperties (some (.ofValue (boundedSize n))) = .ok (boundedTree n.echo) := by
  have hspells : (RawSchema.ofValue (boundedSize n)).Spells (boundedSize n).echo :=
    .ofValue (by simpa [boundedSize, specifying] using hn)
  rw [specProperties_some, hspells.node?_eq]
  simp only [boundedSize, specifying, Value.echo_object, Value.echo_number, List.map_cons,
    List.map_nil]
  rfl

/-- Each time that the bound is read, the next float below is read for it, and the third time at
last the float itself. -/
theorem echo_bound : (bound 0).echo = bound 1 ∧ (bound 1).echo = bound 2
    ∧ (bound 2).echo = bound 3 ∧ (bound 3).echo = bound 3 := by
  decide +kernel

/-- **A manifest may move a bound.** The raw schema whose text has the bound `3e+49` contributes
the float below that; a manifest embeds this float, and gives back a text that contributes the
second float below it. -/
theorem boundedSize_moves :
    specProperties (some (.ofValue (boundedSize (bound 0)))) = .ok (boundedTree (bound 1))
      ∧ RawSchema.codec.encode (.ofValue (boundedSize (bound 0))) = some (boundedSize (bound 1))
      ∧ RawSchema.codec.read (.ofText (boundedSize (bound 1)).compact)
        = .ok (.ofValue (boundedSize (bound 2)))
      ∧ specProperties (some (.ofValue (boundedSize (bound 2)))) = .ok (boundedTree (bound 3))
      ∧ boundedTree (bound 3) ≠ boundedTree (bound 1) := by
  obtain ⟨h₀, h₁, h₂, -⟩ := echo_bound
  -- The bounds are doubles next to each other.
  have hproper : ∀ k ≤ 2, (bound k).Proper := by
    show ∀ k ≤ 2, Binary64.Canonical ⟨false, 0x1486de8697abec - k, 112⟩
    decide
  have hecho : ∀ n : Number, (boundedSize n).echo = boundedSize n.echo := fun n => by
    simp [boundedSize, specifying]
  have hvalue : (RawSchema.ofValue (boundedSize (bound 0))).value?
      = some (boundedSize (bound 1)) := by
    have hbound : (boundedSize (bound 0)).Proper := by
      simpa [boundedSize, specifying] using hproper 0 (by decide)
    rw [RawSchema.value?_eq_some_iff, RawSchema.document_ofValue hbound, hecho, h₀,
      decode_document, value_tree (by decide)]
    rfl
  have hencode : RawSchema.codec.encode = RawSchema.value? := rfl
  refine ⟨?_, hencode ▸ hvalue, ?_, ?_, ?_⟩
  · rw [specProperties_boundedSize (hproper 0 (by decide)), h₀]
  · rw [RawSchema.read_encode hvalue (by simp [boundedSize, specifying]), hecho, h₁]
  · rw [specProperties_boundedSize (hproper 2 (by decide)), h₂]
  · simp [boundedTree, bound]

end CompositeCrd
