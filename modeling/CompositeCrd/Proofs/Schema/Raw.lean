import CompositeCrd.Proofs.Schema.RoundTrip
import CompositeCrd.Proofs.Text.Utf8
import CompositeCrd.Schema.Raw

/-!
# Raw schemas

What a raw schema contributes to generation is the node that its bytes write, `RawSchema.node?`,
and of this node the properties of `spec`, `authoredProperties`. A schema that is absent
contributes nothing, and cannot fail.

The bytes of the compact text of a regular node write the node, with what comes back in the place
of its numbers (`node?_ofText_compact`).
-/

namespace CompositeCrd

open Json

/-- The node that a raw schema writes, or none if it writes `null`. -/
def RawSchema.node? (raw : RawSchema) : Decoded (Option Schema) :=
  raw.document.decode fun depth t => t.optional (Schema.ofTree depth)

/-- The properties of `spec` that a node declares. -/
def authoredProperties (schema : Option Schema) : PropertyTree :=
  ((schema.bind fun s => Keyed.find? "spec" s.properties).map (·.properties)).getD []

variable {raw : RawSchema} {authored : PropertyTree} {cause : DecodeError}

theorem specProperties_some (raw : RawSchema) :
    specProperties (some raw) = raw.node?.map authoredProperties := by
  rw [specProperties, RawSchema.node?]
  cases raw.document.decode fun depth t => t.optional (Schema.ofTree depth) <;> rfl

/-- The properties of a raw schema can be read when it is absent or can be decoded. -/
theorem exists_specProperties_iff {schema : Option RawSchema} :
    (∃ authored, specProperties schema = .ok authored)
      ↔ ∀ raw, schema = some raw → ∃ s, raw.node? = .ok s := by
  cases schema with
  | none => exact ⟨fun _ raw h => absurd h (by simp), fun _ => ⟨[], rfl⟩⟩
  | some raw =>
    rw [specProperties_some]
    refine ⟨?_, ?_⟩
    · rintro ⟨authored, h⟩ _ ⟨⟩
      obtain ⟨s, hs, -⟩ := map_eq_ok.mp h
      exact ⟨s, hs⟩
    · intro h
      obtain ⟨s, hs⟩ := h raw rfl
      exact ⟨_, map_eq_ok.mpr ⟨s, hs, rfl⟩⟩

theorem specProperties_eq_error_iff {schema : Option RawSchema} :
    specProperties schema = .error cause ↔ ∃ raw, schema = some raw ∧ raw.node? = .error cause := by
  cases schema with
  | none =>
    refine ⟨?_, ?_⟩
    · intro h
      exact absurd h (by simp [specProperties])
    · rintro ⟨raw, h, -⟩
      exact absurd h (by simp)
  | some raw =>
    rw [specProperties_some]
    refine ⟨?_, ?_⟩
    · intro h
      refine ⟨raw, rfl, ?_⟩
      cases hnode : raw.node? with
      | ok s =>
        rw [hnode] at h
        exact absurd h (by simp [Except.map])
      | error e =>
        rw [hnode] at h
        exact congrArg Except.error (Except.error.inj h)
    · rintro ⟨_, ⟨⟩, h⟩
      rw [h]
      rfl

/-- The node of a raw schema is regular. -/
theorem regular_of_node? {s : Schema} (h : raw.node? = .ok (some s)) : s.Regular := by
  rcases optional_eq_ok (decode_eq_ok_iff.mp h).1 with hnone | ⟨-, s', hs', hsome⟩
  · exact absurd hnone (by simp)
  · obtain rfl := Option.some.inj hsome
    exact (Schema.Tree.readsRegular (ofSymbols_proper _)).node hs'

/-- The properties that an author contributes are a table of regular nodes. -/
theorem specProperties_regular {schema : Option RawSchema}
    (h : specProperties schema = .ok authored) : Schema.RegularTable authored := by
  cases schema with
  | none => exact Except.ok.inj h ▸ Schema.regularTable_nil
  | some raw =>
    rw [specProperties_some] at h
    obtain ⟨s, hs, rfl⟩ := map_eq_ok.mp h
    cases s with
    | none => exact Schema.regularTable_nil
    | some s =>
      have hregular := regular_of_node? hs
      cases hspec : Keyed.find? "spec" s.properties with
      | none =>
        rw [authoredProperties, Option.bind_some, hspec]
        exact Schema.regularTable_nil
      | some spec =>
        rw [authoredProperties, Option.bind_some, hspec]
        exact (hregular.child (.property (Keyed.mem_of_find? hspec))).slot .properties

/-! ### Raw schemas that write a node -/

theorem document_ofText (text : String) :
    (RawSchema.ofText text).document = Document.ofText text := by
  rw [RawSchema.document, RawSchema.ofText, Document.ofBytes, Utf8.symbols_encode, Document.ofText]

/-- The bytes of the compact text of a regular node write the echo of the node. -/
theorem node?_ofText_compact {s : Schema} (h : s.Regular)
    (hdepth : s.toValue.nesting ≤ maxDepth) :
    (RawSchema.ofText s.compact).node? = .ok (some s.echo) := by
  have hread := (decode_eq_ok_iff.mp (h.read_compact hdepth)).1
  rw [Schema.compact, ofText_compact h.toValue_proper] at hread
  rw [RawSchema.node?, document_ofText, Schema.compact, ofText_compact h.toValue_proper,
    decode_document, optional_of_ne _ (mt Value.echo_eq_null_iff.mp s.toValue_ne_null)]
  exact map_eq_ok.mpr ⟨_, hread, rfl⟩

end CompositeCrd
