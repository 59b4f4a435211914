import CompositeCrd.Metadata
import CompositeCrd.Names
import CompositeCrd.PrinterColumn
import CompositeCrd.Proofs.Json.Record

/-!
# Forms that read back exactly

Metadata, names and printer columns stand in definitions and in custom resource definitions
alike. Each of them can be written whatever it holds, within a few levels, and reads back as
itself.
-/

namespace CompositeCrd

open Json Json.Codec

variable {depth n : Nat}

/-- An owner reference is read back as it was written. -/
theorem OwnerReference.form_lawful : (form : Codec OwnerReference).Lawful depth (· = ·) := by
  refine (record_lawful (fun _ _ => .required text_lawful <| .required text_lawful <|
    .required text_lawful <| .defaulted text_lawful rfl <|
    .optional flag_lawful flag_neverNull <| .optional flag_lawful flag_neverNull .done)
    (by decide) (fun _ => rfl) (fun _ => rfl)).congr ?_
  rintro ⟨⟩ ⟨⟩
  simp [optionRel_eq_iff]

/-- It can always be written. -/
theorem OwnerReference.form_writes :
    (form : Codec OwnerReference).Writes (n + 1) fun _ => True := by
  refine (record_writes <| .required text_writes <| .required text_writes <|
    .required text_writes <| .defaulted text_writes <|
    .optional flag_writes <| .optional flag_writes .done).congr ?_
  simp

/-- The metadata are read back, with labels, annotations and owners. -/
theorem ObjectMeta.form_lawful : (form : Codec ObjectMeta).Lawful depth (· = ·) := by
  refine (record_lawful (fun _ _ => .required text_lawful <| .optional text_lawful text_neverNull <|
    .mapped (fun _ _ => text_lawful) <| .mapped (fun _ _ => text_lawful) <|
    .listed (fun _ _ => OwnerReference.form_lawful) .done)
    (by decide) (fun _ => rfl) (fun _ => rfl)).congr ?_
  rintro ⟨⟩ ⟨⟩
  simp [optionRel_eq_iff, List.forall₂_eq_eq_eq]

/-- They can always be written. -/
theorem ObjectMeta.form_writes : (form : Codec ObjectMeta).Writes (n + 3) fun _ => True := by
  refine (record_writes <| .required text_writes <| .optional text_writes <|
    .mapped text_writes <| .mapped text_writes <|
    .listed OwnerReference.form_writes .done).congr ?_
  simp

/-- The names of a resource are read back. -/
theorem ResourceNames.form_lawful : (form : Codec ResourceNames).Lawful depth (· = ·) := by
  have hempty : ∀ a b : String, a = b → a.isEmpty = true → "" = b := by
    rintro a _ rfl ha
    exact (String.isEmpty_iff.mp ha).symm
  refine (record_lawful (fun _ _ => .required text_lawful <| .required text_lawful <|
    .omitted text_lawful rfl hempty <| .omitted text_lawful rfl hempty <|
    .listed (fun _ _ => text_lawful) <| .listed (fun _ _ => text_lawful) .done)
    (by decide) (fun _ => rfl) (fun _ => rfl)).congr ?_
  rintro ⟨⟩ ⟨⟩
  simp [List.forall₂_eq_eq_eq]

/-- They can always be written. -/
theorem ResourceNames.form_writes : (form : Codec ResourceNames).Writes (n + 2) fun _ => True := by
  refine (record_writes <| .required text_writes <| .required text_writes <|
    .omitted text_writes (fun _ _ => trivial) <| .omitted text_writes (fun _ _ => trivial) <|
    .listed text_writes <| .listed text_writes .done).congr ?_
  simp

/-- A column that is printed is read back. -/
theorem PrinterColumn.form_lawful : (form : Codec PrinterColumn).Lawful depth (· = ·) := by
  refine (record_lawful (fun _ _ => .required text_lawful <| .required text_lawful <|
    .required text_lawful <| .optional text_lawful text_neverNull <|
    .optional text_lawful text_neverNull <| .optional int32_lawful int32_neverNull .done)
    (by decide) (fun _ => rfl) (fun _ => rfl)).congr ?_
  rintro ⟨⟩ ⟨⟩
  simp [optionRel_eq_iff]

/-- It can always be written. -/
theorem PrinterColumn.form_writes : (form : Codec PrinterColumn).Writes (n + 1) fun _ => True := by
  refine (record_writes <| .required text_writes <| .required text_writes <|
    .required text_writes <| .optional text_writes <| .optional text_writes <|
    .optional int32_writes .done).congr ?_
  simp

end CompositeCrd
