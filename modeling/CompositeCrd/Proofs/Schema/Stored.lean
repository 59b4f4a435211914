import CompositeCrd.Proofs.Json.Codec
import CompositeCrd.Proofs.Schema.Raw

/-!
# Raw schemas in manifests

A manifest embeds the value that a raw schema writes, and reading the manifest stores the
compact text of that value (`RawSchema.stored`). So a raw schema is not read back as it is,
unless it has been stored before; and not every raw schema can be embedded, since its bytes may
write no value, or the value `null`, or one that nests too deep for its place
(`RawSchema.Fits`).

The numbers of the value go through a text on the way, so what is stored is the text of the echo
of the value (`RawSchema.echo`), which is that of the value itself if all its numbers come back
(`RawSchema.echo_eq_stored`).
-/

namespace CompositeCrd

open Json Json.Codec

variable {depth n : Nat} {raw : RawSchema} {w : Value} {G : RawSchema → Prop}

namespace RawSchema

/-- The compact text of the value of a raw schema. -/
def stored (raw : RawSchema) : RawSchema :=
  match raw.value? with
  | some w => ofValue w
  | none => raw

/-- **The raw schema as it is read back from a manifest**: the compact text of what comes back of
its value. -/
def echo (raw : RawSchema) : RawSchema :=
  match raw.value? with
  | some w => ofValue w.echo
  | none => raw

/-- The numbers in the raw schema come back from their texts. -/
def Stable (raw : RawSchema) : Prop :=
  ∀ w, raw.value? = some w → w.Stable

/-- The raw schema can be embedded where `depth` lists and objects may still be entered. -/
def Fits (depth : Nat) (raw : RawSchema) : Prop :=
  ∃ w, raw.value? = some w ∧ w ≠ .null ∧ w.nesting ≤ depth

/-- The raw schema is what is stored for a value that is embedded there. -/
def Embedded (depth : Nat) (raw : RawSchema) : Prop :=
  ∃ w : Value, w.Canonical ∧ w ≠ .null ∧ w.nesting ≤ depth ∧ raw = ofValue w

/-- The value of a raw schema is what its document is decoded as. -/
theorem value?_eq_some_iff :
    raw.value? = some w ↔ raw.document.decode Tree.value = .ok w := by
  rw [value?]
  cases raw.document.decode Tree.value with
  | ok w' => exact ⟨fun h => congrArg Except.ok (Option.some.inj h),
      fun h => congrArg some (Except.ok.inj h)⟩
  | error e => exact ⟨fun h => absurd h (by simp [Except.toOption]), fun h => absurd h (by simp)⟩

theorem stored_of_value? (h : raw.value? = some w) : raw.stored = ofValue w := by
  rw [stored, h]

theorem echo_of_value? (h : raw.value? = some w) : raw.echo = ofValue w.echo := by
  rw [echo, h]

/-- If its numbers come back, a raw schema comes back as it is stored. -/
theorem echo_eq_stored (h : raw.Stable) : raw.echo = raw.stored := by
  cases hw : raw.value? with
  | none => rw [echo, stored, hw]
  | some w => rw [echo_of_value? hw, stored_of_value? hw, h w hw]

/-- The value of a raw schema is canonical, and nests no deeper than documents may. -/
theorem canonical_of_value? (h : raw.value? = some w) : w.Canonical ∧ w.nesting ≤ maxDepth := by
  have hread := (decode_eq_ok_iff.mp (value?_eq_some_iff.mp h)).1
  exact ⟨Tree.value_canonical (ofSymbols_proper _) hread, Tree.nesting_of_value hread⟩

/-- The text of a value is read as the document of its echo. -/
theorem document_ofValue (h : w.Proper) : (ofValue w).document = w.echo.document := by
  rw [ofValue, document_ofText, ofText_compact h]

/-- The compact text of a canonical value writes the echo of the value. -/
theorem value?_ofValue (h : w.Canonical) (hdepth : w.nesting ≤ maxDepth) :
    (ofValue w).value? = some w.echo := by
  rw [value?_eq_some_iff, document_ofValue h.proper, decode_document,
    value_tree ((Value.nesting_echo w).trans_le hdepth), h.echo.sorted_eq]

/-- Any value but `null` can be embedded, as its text. -/
theorem embedded_eq_ok_iff {raw : RawSchema} :
    embedded w = .ok raw ↔ w ≠ .null ∧ raw = ofValue w := by
  cases w with
  | null => simp [embedded]
  | _ => exact ⟨fun h => ⟨by simp, (Except.ok.inj h).symm⟩, fun h => congrArg Except.ok h.2.symm⟩

/-! ### What is read and what can be embedded -/

/-- What has been embedded once can be embedded again. -/
theorem Embedded.fits (h : raw.Embedded depth) (hdepth : depth ≤ maxDepth) : raw.Fits depth := by
  obtain ⟨w, hcanonical, hne, hle, rfl⟩ := h
  exact ⟨w.echo, value?_ofValue hcanonical (hle.trans hdepth), mt Value.echo_eq_null_iff.mp hne,
    (Value.nesting_echo w).trans_le hle⟩

/-- The stored text of a value whose numbers come back comes back itself. -/
theorem echo_ofValue (h : w.Canonical) (hdepth : w.nesting ≤ maxDepth) (hstable : w.Stable) :
    (ofValue w).echo = ofValue w := by
  have hself : w.echo = w := hstable
  rw [echo_of_value? (value?_ofValue h hdepth), hself, hself]

/-- A property of raw schemas that all those have which are read from manifests, and only those
which can be written to them. -/
structure Settles (depth : Nat) (G : RawSchema → Prop) : Prop where
  read : ∀ raw, raw.Embedded depth → G raw
  fits : ∀ raw, G raw → raw.Fits depth

/-- Raw schemas that fit in the depth come back as their echoes. -/
theorem settles_fits (hdepth : depth ≤ maxDepth) : Settles depth (Fits depth) :=
  ⟨fun _ h => h.fits hdepth, fun _ h => h⟩

theorem settles_embedded (hdepth : depth ≤ maxDepth) : Settles depth (Embedded depth) :=
  ⟨fun _ h => h, fun _ h => h.fits hdepth⟩

/-- **A raw schema is read back as its echo**, if it can be embedded at all, as one can that has
been read from a manifest. -/
theorem codec_lawful (h : Settles depth G) :
    codec.Lawful depth fun raw raw' => G raw ∧ raw.echo = raw' where
  settled := by
    intro t raw ht hread
    obtain ⟨w, hw, hread⟩ := bind_eq_ok.mp hread
    obtain ⟨hne, rfl⟩ := embedded_eq_ok_iff.mp hread
    refine ⟨_, h.read _ ⟨w, ?_, hne, ?_, rfl⟩, rfl⟩
    · exact Tree.value_canonical ht hw
    · exact Tree.nesting_of_value hw
  reads := by
    rintro raw _ v ⟨hraw, rfl⟩ hv hle
    obtain ⟨w, hw, hne, -⟩ := h.fits raw hraw
    obtain rfl : w = v := Option.some.inj (hw.symm.trans hv)
    have hcanonical := (canonical_of_value? hw).1
    refine ⟨hcanonical.proper, bind_eq_ok.mpr ⟨w.echo, ?_, ?_⟩⟩
    · rw [value_tree ((Value.nesting_echo w).trans_le hle), hcanonical.echo.sorted_eq]
    · exact embedded_eq_ok_iff.mpr ⟨mt Value.echo_eq_null_iff.mp hne, echo_of_value? hw⟩

/-- A raw schema is written when it is the text of a value. -/
theorem codec_writes : codec.Writes n fun raw => ∃ w, raw.value? = some w ∧ w.nesting ≤ n :=
  fun _ => Iff.rfl

end RawSchema

end CompositeCrd
