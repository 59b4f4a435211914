import CompositeCrd.Definition
import Mathlib.Data.List.Basic

/-!
# Names of a claim beside its composite resource

In one group, two resources must have no name of a kind in common, be it that of an object or
that of a list, and no name that leads to them, be it the plural, the singular or a short one
(`ResourceNames.Apart`).

The check compares the claim with the composite resource field by field. So it refuses no claim
that is apart, and a claim that it accepts is apart unless a name of the claim stands in another
field of the composite resource, or one of the two is a short name
(`apart_iff_accepted_uncrossed`). Of these it takes no notice (`crossedSizes_accepted`).

Where the names collide in several fields, the first of them is reported, in the order of
`NameField.rank` (`checkedClaimNames_decided`).
-/

namespace CompositeCrd

namespace ResourceNames

variable {claim composite : ResourceNames} {declared : Option ResourceNames}

/-! ### Names that must be apart -/

/-- The names of kinds, without a kind of lists that is left open. -/
def kindNames (n : ResourceNames) : List String :=
  n.kind :: [n.listKind].filter (· ≠ "")

/-- The names that lead to a resource, without a singular that is left open. -/
def pathNames (n : ResourceNames) : List String :=
  n.plural :: ([n.singular].filter (· ≠ "") ++ n.shortNames)

/-- Two resources have no names of the same sort in common. -/
structure Apart (claim composite : ResourceNames) : Prop where
  kinds : claim.kindNames.Disjoint composite.kindNames
  paths : claim.pathNames.Disjoint composite.pathNames

/-- No name of the one is a name of the same sort, but in another field, of the other, and no
short name of the one leads to the other. -/
structure Uncrossed (claim composite : ResourceNames) : Prop where
  kind : composite.listKind ≠ "" → claim.kind ≠ composite.listKind
  listKind : claim.listKind ≠ "" → claim.listKind ≠ composite.kind
  plural : composite.singular ≠ "" → claim.plural ≠ composite.singular
  singular : claim.singular ≠ "" → claim.singular ≠ composite.plural
  shortNames : ∀ name ∈ claim.shortNames, name ∉ composite.pathNames
  shortNames' : ∀ name ∈ composite.shortNames, name ∉ claim.pathNames

/-! ### What the check compares -/

theorem mem_all_fields (field : NameField) : field ∈ (Spelled.all : List NameField) := by
  cases field <;> decide

/-- **A claim is accepted when it is declared and clashes in no field.** -/
theorem checkClaim_eq_ok_iff : composite.checkClaim declared = .ok claim ↔
    declared = some claim ∧ ∀ field, clashes claim composite field = false := by
  cases declared with
  | none => simp [checkClaim]
  | some names =>
    rw [checkClaim]
    cases hfind : (Spelled.all : List NameField).find? (clashes names composite) with
    -- A field that clashes is an error, so the names are not accepted.
    | some field =>
      have hclash : clashes names composite field = true := List.find?_some hfind
      refine iff_of_false (by simp) ?_
      rintro ⟨heq, hnone⟩
      obtain rfl := Option.some.inj heq
      exact absurd hclash (by simp [hnone field])
    | none =>
      have hnone : ∀ field, clashes names composite field = false := fun field =>
        Bool.eq_false_iff.mpr (List.find?_eq_none.mp hfind field (mem_all_fields field))
      refine ⟨?_, ?_⟩
      · intro h
        obtain rfl := Except.ok.inj h
        exact ⟨rfl, hnone⟩
      · rintro ⟨heq, -⟩
        rw [Option.some.inj heq]

/-- The fields in which a claim must differ, of which it may leave two open. -/
theorem clashes_eq_false_iff : (∀ field, clashes claim composite field = false) ↔
    claim.kind ≠ composite.kind ∧ claim.plural ≠ composite.plural
      ∧ (claim.singular ≠ "" → claim.singular ≠ composite.singular)
      ∧ (claim.listKind ≠ "" → claim.listKind ≠ composite.listKind) := by
  refine ⟨fun h => ?_, ?_⟩
  · -- Field by field; the kind and the plural are always given.
    have hkind := h .kind
    have hplural := h .plural
    have hsingular := h .singular
    have hlistKind := h .listKind
    simp_all [clashes, leavesOpen, get]
  · rintro ⟨hkind, hplural, hsingular, hlistKind⟩ (_ | _ | _ | _) <;>
      simp_all [clashes, leavesOpen, get]

/-- The names of the kind: the kind, and that of its lists if it is given. -/
theorem mem_kindNames {n : ResourceNames} {name : String} :
    name ∈ n.kindNames ↔ name = n.kind ∨ n.listKind ≠ "" ∧ name = n.listKind := by
  by_cases h : n.listKind = "" <;> simp [kindNames, h]

/-- The names in a path: the plural, the singular if it is given, and the short names. -/
theorem mem_pathNames {n : ResourceNames} {name : String} : name ∈ n.pathNames ↔
    name = n.plural ∨ n.singular ≠ "" ∧ name = n.singular ∨ name ∈ n.shortNames := by
  by_cases h : n.singular = "" <;> simp [pathNames, h]

/-- The names of kinds are apart when none of the four pairs of them is equal. -/
theorem disjoint_kindNames_iff : claim.kindNames.Disjoint composite.kindNames ↔
    claim.kind ≠ composite.kind
      ∧ (claim.listKind ≠ "" → claim.listKind ≠ composite.listKind)
      ∧ (composite.listKind ≠ "" → claim.kind ≠ composite.listKind)
      ∧ (claim.listKind ≠ "" → claim.listKind ≠ composite.kind) := by
  simp only [List.disjoint_left, mem_kindNames]
  -- Two names on either side, so there are four pairs.
  refine ⟨fun h => ⟨?_, ?_, ?_, ?_⟩, ?_⟩
  · exact fun heq => h (.inl rfl) (.inl heq)
  · exact fun hopen heq => h (.inr ⟨hopen, rfl⟩) (.inr ⟨heq ▸ hopen, heq⟩)
  · exact fun hopen heq => h (.inl rfl) (.inr ⟨hopen, heq⟩)
  · exact fun hopen heq => h (.inr ⟨hopen, rfl⟩) (.inl heq)
  · rintro ⟨hkind, hlist, hkindList, hlistKind⟩ name (rfl | ⟨hopen, rfl⟩) (heq | ⟨hopen', heq⟩)
    · exact hkind heq
    · exact hkindList hopen' heq
    · exact hlistKind hopen heq
    · exact hlist hopen heq

/-- So are the names that lead to the resources, for which short names are held against all
others. -/
theorem disjoint_pathNames_iff : claim.pathNames.Disjoint composite.pathNames ↔
    claim.plural ≠ composite.plural
      ∧ (claim.singular ≠ "" → claim.singular ≠ composite.singular)
      ∧ (composite.singular ≠ "" → claim.plural ≠ composite.singular)
      ∧ (claim.singular ≠ "" → claim.singular ≠ composite.plural)
      ∧ (∀ name ∈ claim.shortNames, name ∉ composite.pathNames)
      ∧ ∀ name ∈ composite.shortNames, name ∉ claim.pathNames := by
  rw [List.disjoint_left]
  -- Each condition says that a name of the one list is not in the other.
  refine ⟨fun h => ⟨?_, ?_, ?_, ?_, ?_, ?_⟩, ?_⟩
  · exact fun heq => h (mem_pathNames.mpr (.inl rfl)) (mem_pathNames.mpr (.inl heq))
  · exact fun hopen heq => h (mem_pathNames.mpr (.inr (.inl ⟨hopen, rfl⟩)))
      (mem_pathNames.mpr (.inr (.inl ⟨heq ▸ hopen, heq⟩)))
  · exact fun hopen heq => h (mem_pathNames.mpr (.inl rfl))
      (mem_pathNames.mpr (.inr (.inl ⟨hopen, heq⟩)))
  · exact fun hopen heq => h (mem_pathNames.mpr (.inr (.inl ⟨hopen, rfl⟩)))
      (mem_pathNames.mpr (.inl heq))
  · exact fun name hname => h (mem_pathNames.mpr (.inr (.inr hname)))
  · exact fun name hname hclaim => h hclaim (mem_pathNames.mpr (.inr (.inr hname)))
  · rintro ⟨hplural, hsingular, hpluralSingular, hsingularPlural, hshort, hshort'⟩ name hclaim
      hcomposite
    -- A short name is apart by assumption, so what is left are the other four pairs.
    by_cases hname : name ∈ claim.shortNames
    · exact hshort name hname hcomposite
    by_cases hname' : name ∈ composite.shortNames
    · exact hshort' name hname' hclaim
    obtain rfl | ⟨hopen, rfl⟩ | hmem := mem_pathNames.mp hclaim
    · obtain heq | ⟨hopen', heq⟩ | hmem := mem_pathNames.mp hcomposite
      · exact hplural heq
      · exact hpluralSingular hopen' heq
      · exact hname' hmem
    · obtain heq | ⟨-, heq⟩ | hmem := mem_pathNames.mp hcomposite
      · exact hsingularPlural hopen heq
      · exact hsingular hopen heq
      · exact hname' hmem
    · exact hname hmem

/-- Two resources are apart when they clash in no field and no name is crossed. -/
theorem apart_iff : claim.Apart composite ↔
    (∀ field, clashes claim composite field = false) ∧ claim.Uncrossed composite := by
  rw [clashes_eq_false_iff]
  refine ⟨?_, ?_⟩
  · -- The pairs of one field are what the check looks at, the others are the crossed ones.
    rintro ⟨hkinds, hpaths⟩
    obtain ⟨hkind, hlist, hkindList, hlistKind⟩ := disjoint_kindNames_iff.mp hkinds
    obtain ⟨hplural, hsingular, hpluralSingular, hsingularPlural, hshort, hshort'⟩ :=
      disjoint_pathNames_iff.mp hpaths
    exact ⟨⟨hkind, hplural, hsingular, hlist⟩,
      ⟨hkindList, hlistKind, hpluralSingular, hsingularPlural, hshort, hshort'⟩⟩
  · rintro ⟨⟨hkind, hplural, hsingular, hlist⟩, hcrossed⟩
    exact ⟨disjoint_kindNames_iff.mpr ⟨hkind, hlist, hcrossed.kind, hcrossed.listKind⟩,
      disjoint_pathNames_iff.mpr ⟨hplural, hsingular, hcrossed.plural, hcrossed.singular,
        hcrossed.shortNames, hcrossed.shortNames'⟩⟩

end ResourceNames

/-- **A declared claim is apart from its composite resource exactly when it is accepted and no
name is crossed.** -/
theorem apart_iff_accepted_uncrossed {d : Definition} {claim : ResourceNames}
    (h : d.spec.claimNames = some claim) : claim.Apart d.spec.names ↔
      d.checkedClaimNames = .ok claim ∧ claim.Uncrossed d.spec.names := by
  rw [Definition.checkedClaimNames, ResourceNames.checkClaim_eq_ok_iff, ResourceNames.apart_iff, h]
  simp

/-- The names of a claim that leaves the kind of its lists open. -/
def sizeNames : ResourceNames where
  kind := "Size"
  plural := "sizes"
  singular := "size"
  shortNames := ["sz"]

/-- A definition with this claim, whose composite resource leaves its singular open. -/
def apartSizes : Definition :=
  (Definition.new "compositesizes.example.org" "example.org"
    { kind := "CompositeSize", plural := "compositesizes", listKind := "CompositeSizeList",
      shortNames := ["csz"] }).withClaimNames sizeNames

/-- Names that are apart are accepted. -/
theorem apartSizes_accepted : sizeNames.Apart apartSizes.spec.names
    ∧ apartSizes.checkedClaimNames = .ok sizeNames := by
  have hdeclared : apartSizes.spec.claimNames = some sizeNames := rfl
  have hiff := apart_iff_accepted_uncrossed hdeclared
  have hcrossed : sizeNames.Uncrossed apartSizes.spec.names := by
    constructor <;> decide
  have haccepted : apartSizes.checkedClaimNames = .ok sizeNames := by decide
  exact ⟨hiff.mpr ⟨haccepted, hcrossed⟩, haccepted⟩

/-- A definition whose claim is of the kind that lists of the composite resource are of, and
shares a short name with it. -/
def crossedSizes : Definition :=
  (Definition.new "compositesizes.example.org" "example.org"
    { kind := "CompositeSize", plural := "compositesizes", listKind := "Size",
      shortNames := ["sz"] }).withClaimNames sizeNames

/-- **Crossed names are accepted.** -/
theorem crossedSizes_accepted : crossedSizes.checkedClaimNames = .ok sizeNames
    ∧ "Size" ∈ sizeNames.kindNames ∧ "Size" ∈ crossedSizes.spec.names.kindNames
    ∧ "sz" ∈ sizeNames.pathNames ∧ "sz" ∈ crossedSizes.spec.names.pathNames
    ∧ ¬sizeNames.Apart crossedSizes.spec.names := by
  have hclaim : "Size" ∈ sizeNames.kindNames := by decide
  have hcomposite : "Size" ∈ crossedSizes.spec.names.kindNames := by decide
  exact ⟨by decide, hclaim, hcomposite, by decide, by decide, fun h => h.kinds hclaim hcomposite⟩

/-! ### The field that is reported -/

/-- The place of a field in the order of reports. -/
def NameField.rank : NameField → Nat
  | .kind => 0
  | .plural => 1
  | .singular => 2
  | .listKind => 3

/-- In a list that ascends, the first element of a class is the least one. -/
theorem find?_eq_some_iff_least {α : Type} {l : List α} {rank : α → Nat} {p : α → Bool} {a : α}
    (hl : l.Pairwise (rank · < rank ·)) : l.find? p = some a ↔
      a ∈ l ∧ p a = true ∧ ∀ b ∈ l, rank b < rank a → p b = false := by
  induction l with
  | nil => simp
  | cons b l ih =>
    obtain ⟨hb, hl⟩ := List.pairwise_cons.mp hl
    rw [List.find?_cons]
    -- The head is less than all the others: it is found, or it is not in the class.
    cases hp : p b with
    | true =>
      simp only [Option.some.injEq]
      refine ⟨?_, ?_⟩
      · rintro rfl
        refine ⟨List.mem_cons_self, hp, List.forall_mem_cons.mpr ⟨?_, ?_⟩⟩
        · exact fun hlt => absurd hlt (Nat.lt_irrefl _)
        intro c hc hlt
        exact absurd (hb c hc) (Nat.lt_asymm hlt)
      · rintro ⟨hmem, -, hleast⟩
        by_contra hne
        have hlater : a ∈ l := (List.mem_cons.mp hmem).resolve_left (Ne.symm hne)
        have hnot := hleast b List.mem_cons_self (hb a hlater)
        exact absurd hp (by simp [hnot])
    | false =>
      show l.find? p = some a ↔ _
      rw [ih hl, List.mem_cons, List.forall_mem_cons]
      refine ⟨?_, ?_⟩
      · rintro ⟨hmem, hpa, hleast⟩
        exact ⟨.inr hmem, hpa, fun _ => hp, hleast⟩
      · rintro ⟨hmem, hpa, -, hleast⟩
        refine ⟨hmem.resolve_left ?_, hpa, hleast⟩
        rintro rfl
        exact absurd hpa (by simp [hp])

namespace ResourceNames

variable {claim composite : ResourceNames} {declared : Option ResourceNames} {field : NameField}
  {value : String}

/-- The two resources have one name in a field. Two empty names are one name only where a name
is required. -/
structure Collides (claim composite : ResourceNames) (field : NameField) : Prop where
  same : claim.get field = composite.get field
  named : field = .singular ∨ field = .listKind → claim.get field ≠ ""

/-- The check of a field finds what collides. -/
theorem clashes_eq_true_iff :
    clashes claim composite field = true ↔ claim.Collides composite field := by
  rw [clashes, Bool.and_eq_true, beq_iff_eq, Bool.not_eq_true']
  refine ⟨?_, ?_⟩
  · rintro ⟨hnamed, hsame⟩
    refine ⟨hsame, ?_⟩
    -- A name that is left open clashes with nothing.
    rintro (rfl | rfl) hempty
    · exact absurd hnamed (by simp [leavesOpen, show claim.singular = "" from hempty])
    · exact absurd hnamed (by simp [leavesOpen, show claim.listKind = "" from hempty])
  · rintro ⟨hsame, hnamed⟩
    refine ⟨?_, hsame⟩
    cases field with
    | kind | plural => rfl
    | singular | listKind => simpa [leavesOpen, get] using hnamed (by simp)

/-- A claim is missing when none is declared. -/
theorem checkClaim_eq_missing_iff : composite.checkClaim declared = .error .missing ↔
    declared = none := by
  cases declared with
  | none => simp [checkClaim]
  | some claim =>
    rw [checkClaim]
    cases (Spelled.all : List NameField).find? (clashes claim composite) <;> simp

/-- The check reports the first field in which the names collide. -/
theorem checkClaim_eq_conflict_iff :
    composite.checkClaim declared = .error (.conflict field value) ↔
      ∃ claim, declared = some claim ∧ claim.get field = value ∧ claim.Collides composite field
        ∧ ∀ earlier, earlier.rank < field.rank → ¬claim.Collides composite earlier := by
  have hordered : (Spelled.all : List NameField).Pairwise (·.rank < ·.rank) := by decide
  cases declared with
  | none => simp [checkClaim]
  | some claim =>
    -- The field that is found is the first that collides, in the order of the check.
    have hfirst : (Spelled.all : List NameField).find? (clashes claim composite) = some field ↔
        claim.Collides composite field
          ∧ ∀ earlier, earlier.rank < field.rank → ¬claim.Collides composite earlier := by
      rw [find?_eq_some_iff_least hordered]
      simp only [mem_all_fields, true_and, true_implies, clashes_eq_true_iff,
        ← Bool.not_eq_true]
    rw [checkClaim]
    cases hfind : (Spelled.all : List NameField).find? (clashes claim composite) with
    | none =>
      rw [hfind] at hfirst
      refine iff_of_false (by simp) ?_
      rintro ⟨_, ⟨⟩, -, hcollides⟩
      exact absurd (hfirst.mpr hcollides) (by simp)
    | some reported =>
      rw [hfind, Option.some.injEq] at hfirst
      refine ⟨?_, ?_⟩
      · intro h
        obtain ⟨rfl, hvalue⟩ := ClaimNameError.conflict.inj (Except.error.inj h)
        exact ⟨claim, rfl, hvalue, hfirst.mp rfl⟩
      · rintro ⟨_, ⟨⟩, rfl, hcollides⟩
        rw [hfirst.mpr hcollides]

end ResourceNames

/-- **A claim is accepted, missing, or refused for the first field in which it collides.** The
name that is reported is the name of both resources in that field, and so it is empty only if
names are required there. -/
theorem checkedClaimNames_decided (d : Definition) :
    (∀ claim, d.checkedClaimNames = .ok claim ↔ d.spec.claimNames = some claim
      ∧ claim.kind ≠ d.spec.names.kind ∧ claim.plural ≠ d.spec.names.plural
      ∧ (claim.singular = "" ∨ claim.singular ≠ d.spec.names.singular)
      ∧ (claim.listKind = "" ∨ claim.listKind ≠ d.spec.names.listKind))
    ∧ (d.checkedClaimNames = .error .missing ↔ d.spec.claimNames = none)
    ∧ ∀ field value, d.checkedClaimNames = .error (.conflict field value) ↔
        ∃ claim, d.spec.claimNames = some claim
          ∧ claim.get field = value ∧ d.spec.names.get field = value
          ∧ claim.Collides d.spec.names field
          ∧ ∀ earlier, earlier.rank < field.rank → ¬claim.Collides d.spec.names earlier := by
  refine ⟨fun claim => ?_, ResourceNames.checkClaim_eq_missing_iff, fun field value => ?_⟩
  · rw [Definition.checkedClaimNames, ResourceNames.checkClaim_eq_ok_iff,
      ResourceNames.clashes_eq_false_iff]
    simp only [or_iff_not_imp_left, ne_eq]
  · rw [Definition.checkedClaimNames, ResourceNames.checkClaim_eq_conflict_iff]
    refine exists_congr fun claim => and_congr_right fun _ => ?_
    refine and_congr_right fun hvalue => ?_
    -- What the claim is called there, the composite resource is called too.
    refine ⟨fun h => ⟨h.1.same.symm.trans hvalue, h⟩, And.right⟩

end CompositeCrd
