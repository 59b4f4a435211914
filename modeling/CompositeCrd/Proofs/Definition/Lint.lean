import CompositeCrd.Definition.Lint
import Mathlib.Data.List.Basic

/-!
# Versions without issues

The lint goes through the names with a list of those that it has seen, and then counts the
referenceable versions. It finds nothing exactly when no name is blank, no two names are the same
up to the white space around them, and one version is referenceable
(`versionIssues_eq_nil_iff`).
-/

namespace CompositeCrd

variable {d : Definition} {seen names : List String}

/-- The names are in order when none is blank and none is the same as another one or as one of
those seen before, the white space around them apart. -/
theorem nameIssues_eq_nil_iff : nameIssues seen names = [] ↔
    (∀ name ∈ names, Text.trim name ≠ "") ∧ (names.map Text.trim).Nodup
      ∧ ∀ name ∈ names, Text.trim name ∉ seen := by
  induction names generalizing seen with
  | nil => simp [nameIssues]
  | cons name names ih =>
    rw [nameIssues]
    -- A name adds an issue, or it becomes one of those that the names behind it must not be.
    split
    · next hblank =>
      have hempty : Text.trim name = "" := String.isEmpty_iff.mp hblank
      simp [hempty]
    · next hblank =>
      have hempty : Text.trim name ≠ "" := fun h => hblank (String.isEmpty_iff.mpr h)
      split
      · next hseen => simp [hseen]
      · next hseen =>
        rw [ih, List.forall_mem_cons, List.forall_mem_cons, List.map_cons, List.nodup_cons]
        have hnew : (∀ other ∈ names, Text.trim other ∉ Text.trim name :: seen) ↔
            Text.trim name ∉ names.map Text.trim ∧ ∀ other ∈ names, Text.trim other ∉ seen := by
          simp only [List.mem_cons, not_or, List.mem_map, not_exists, not_and, ← forall_and]
        rw [hnew]
        exact ⟨fun ⟨hall, hnodup, hfirst, hrest⟩ =>
            ⟨⟨hempty, hall⟩, ⟨hfirst, hnodup⟩, hseen, hrest⟩,
          fun ⟨⟨_, hall⟩, ⟨hfirst, hnodup⟩, _, hrest⟩ => ⟨hall, hnodup, hfirst, hrest⟩⟩

theorem countIssues_eq_nil_iff : countIssues names = [] ↔ names.length = 1 := by
  rcases names with _ | ⟨_, _ | _⟩ <;> simp [countIssues]

/-- **The lint finds nothing exactly when the names are there and differ up to white space and
one version is referenceable.** -/
theorem versionIssues_eq_nil_iff : d.versionIssues = [] ↔
    (∀ v ∈ d.spec.versions, Text.trim v.name ≠ "")
      ∧ (d.spec.versions.map fun v => Text.trim v.name).Nodup
      ∧ (d.spec.versions.filter (·.referenceable)).length = 1 := by
  unfold Definition.versionIssues
  split
  · next hnone => simp [hnone]
  · rw [List.append_eq_nil_iff, nameIssues_eq_nil_iff, countIssues_eq_nil_iff, List.length_map,
      List.forall_mem_map, List.map_map]
    simp only [List.not_mem_nil, not_false_eq_true, implies_true, and_true, and_assoc]
    exact Iff.rfl

end CompositeCrd
