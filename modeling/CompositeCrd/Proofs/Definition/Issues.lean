import CompositeCrd.Definition.Lint
import Mathlib.Data.List.Induction
import Mathlib.Data.Multiset.Count
import Mathlib.Data.Multiset.MapFold

/-!
# The issues of versions

The lint keeps the names that it has seen and leaves the blank ones out. What it reports can be
said without them: each name is looked at together with the names before it (`nameIssueAt`), and
then the referenceable versions are counted. A name that is there `n` times is reported `n - 1`
times, whichever of the copies comes first, and so the order of the versions matters only for
the order of the issues and for that of the names that `manyReferenceable` lists
(`VersionIssue.Alike`).
-/

namespace CompositeCrd

variable {d d' : Definition} {versions versions' : List DefinitionVersion}
  {name n : String} {seen names names' : List String} {issue : VersionIssue}

/-! ### The reports in order -/

/-- The issue with the name of the version at a position, if there is a version. -/
def nameIssueAt (versions : List DefinitionVersion) (i : ℕ) : Option VersionIssue :=
  versions[i]?.bind fun v =>
    if Text.trim v.name = "" then some .blankName
    else if ∃ earlier ∈ versions.take i, Text.trim earlier.name = Text.trim v.name then
      some (.duplicate (Text.trim v.name))
    else none

/-- The issue with the number of versions that are referenceable, if there is one. -/
def referenceIssue (versions : List DefinitionVersion) : Option VersionIssue :=
  let referenceable := versions.filter (·.referenceable)
  if referenceable.length = 1 then none
  else if referenceable.length = 0 then some .noneReferenceable
  else some (.manyReferenceable (referenceable.map (·.name)))

/-- The issue of how many versions are referenceable. -/
theorem countIssues_eq : countIssues ((versions.filter (·.referenceable)).map (·.name))
    = (referenceIssue versions).toList := by
  rcases h : versions.filter (·.referenceable) with _ | ⟨v, _ | ⟨w, rest⟩⟩ <;>
    simp [referenceIssue, countIssues, h]

/-- One more name at the end adds what the names before it and those seen make of it. -/
theorem nameIssues_concat : nameIssues seen (names ++ [name]) = nameIssues seen names ++
    if Text.trim name = "" then [.blankName]
    else if Text.trim name ∈ seen ∨ Text.trim name ∈ names.map Text.trim then
      [.duplicate (Text.trim name)]
    else [] := by
  -- The induction is on the names in front; what is seen grows with it.
  induction names generalizing seen with
  | nil =>
    by_cases hblank : Text.trim name = ""
    · -- The name is blank, or it is looked up among those seen.
      simp [nameIssues, hblank]
    · by_cases hseen : Text.trim name ∈ seen <;>
        simp [nameIssues, hblank, hseen]
  | cons first names ih =>
    rw [List.cons_append, nameIssues, nameIssues]
    -- The list of names seen grows by the first name, unless that is blank or in it already.
    by_cases hblank : Text.trim first = ""
    · by_cases hname : Text.trim name = "" <;> simp [ih, hblank, hname]
    · by_cases hseen : Text.trim first ∈ seen
      · have hsame : (Text.trim name ∈ seen ∨ Text.trim name ∈ names.map Text.trim)
            ↔ (Text.trim name ∈ seen ∨ Text.trim name ∈ (first :: names).map Text.trim) := by
          rw [List.map_cons, List.mem_cons]
          refine ⟨Or.imp_right .inr, ?_⟩
          rintro (hmem | heq | hmem)
          · exact .inl hmem
          · exact .inl (heq ▸ hseen)
          · exact .inr hmem
        simp only [String.isEmpty_iff, hblank, hseen, ih, hsame, if_true, if_false,
          List.cons_append]
      · have hsame : (Text.trim name ∈ Text.trim first :: seen
              ∨ Text.trim name ∈ names.map Text.trim)
            ↔ (Text.trim name ∈ seen ∨ Text.trim name ∈ (first :: names).map Text.trim) := by
          rw [List.map_cons, List.mem_cons, List.mem_cons, or_left_comm, or_assoc]
        simp only [String.isEmpty_iff, hblank, hseen, ih, hsame, if_false]

/-- A version at the end is not among those before the others. -/
theorem nameIssueAt_concat_of_lt {v : DefinitionVersion} {i : ℕ} (hi : i < versions.length) :
    nameIssueAt (versions ++ [v]) i = nameIssueAt versions i := by
  rw [nameIssueAt, nameIssueAt, List.getElem?_append_left hi,
    List.take_append_of_le_length hi.le]

/-- Going through the names with a list of those seen is looking back from each of them. -/
theorem nameIssues_eq_filterMap : nameIssues [] (versions.map (·.name))
    = (List.range versions.length).filterMap (nameIssueAt versions) := by
  induction versions using List.reverseRecOn with
  | nil => rfl
  | append_singleton versions v ih =>
    -- A version behind does not change what is said of those in front.
    have hbefore : (List.range versions.length).filterMap (nameIssueAt (versions ++ [v]))
        = (List.range versions.length).filterMap (nameIssueAt versions) :=
      List.filterMap_congr fun i hi => nameIssueAt_concat_of_lt (List.mem_range.mp hi)
    -- The last one is compared with those in front of it.
    have hlast : (nameIssueAt (versions ++ [v]) versions.length).toList
        = if Text.trim v.name = "" then [.blankName]
          else if Text.trim v.name ∈ ([] : List String)
              ∨ Text.trim v.name ∈ (versions.map (·.name)).map Text.trim then
            [.duplicate (Text.trim v.name)]
          else [] := by
      simp only [nameIssueAt, List.getElem?_concat_length, Option.bind_some,
        List.take_left', List.not_mem_nil, false_or, List.map_map, List.mem_map,
        Function.comp_apply]
      split_ifs <;> rfl
    rw [List.map_append, List.map_singleton, nameIssues_concat, ih, ← hlast, List.length_append,
      List.length_singleton, List.range_succ, List.filterMap_append, hbefore]
    cases h : nameIssueAt (versions ++ [v]) versions.length <;> simp [h]

/-! ### How often something is reported -/

/-- The names as the lint compares them. -/
def trimmedNames (versions : List DefinitionVersion) : List String :=
  versions.map fun v => Text.trim v.name

/-- Every copy of a name is reported but the first one, and the first one too if it was seen
before. -/
theorem count_duplicate_nameIssues (hn : n ≠ "") :
    (nameIssues seen names).count (.duplicate n)
      = if n ∈ seen then (names.map Text.trim).count n else (names.map Text.trim).count n - 1 := by
  induction names generalizing seen with
  | nil => simp [nameIssues]
  | cons name names ih =>
    rw [nameIssues]
    by_cases hname : Text.trim name = n
    · -- The name itself: it is reported exactly if it was seen.
      by_cases hseen : n ∈ seen <;> simp [hname, hn, hseen, ih]
    · by_cases hblank : Text.trim name = ""
      · simp [hblank, ih, hn.symm]
      · by_cases hseen : Text.trim name ∈ seen <;>
          simp [hname, hblank, hseen, ih, Ne.symm hname]

/-- A blank name is reported as often as there is one. -/
theorem count_blankName_nameIssues :
    (nameIssues seen names).count .blankName = (names.map Text.trim).count "" := by
  induction names generalizing seen with
  | nil => rfl
  | cons name names ih =>
    rw [nameIssues]
    by_cases hblank : Text.trim name = ""
    · simp [hblank, ih]
    · by_cases hseen : Text.trim name ∈ seen <;> simp [hblank, hseen, ih]

/-- Nothing but blank names and names used before is found going through the names. -/
theorem mem_nameIssues (h : issue ∈ nameIssues seen names) :
    issue = .blankName ∨ ∃ n, n ≠ "" ∧ issue = .duplicate n := by
  induction names generalizing seen with
  | nil => exact absurd h List.not_mem_nil
  | cons name names ih =>
    rw [nameIssues] at h
    split at h
    · exact (List.mem_cons.mp h).elim .inl ih
    · next hblank =>
      split at h
      · refine (List.mem_cons.mp h).elim (fun hissue => .inr ⟨_, ?_, hissue⟩) ih
        exact fun hempty => hblank (String.isEmpty_iff.mpr hempty)
      · exact ih h

/-- The order of the names does not matter for how often something is reported of them. -/
theorem nameIssues_perm (h : (names'.map Text.trim).Perm (names.map Text.trim)) :
    (nameIssues [] names').Perm (nameIssues [] names) := by
  refine List.perm_iff_count.mpr fun issue => ?_
  by_cases hblank : issue = .blankName
  · rw [hblank, count_blankName_nameIssues, count_blankName_nameIssues, h.count_eq]
  by_cases hduplicate : ∃ n, n ≠ "" ∧ issue = .duplicate n
  · obtain ⟨n, hn, rfl⟩ := hduplicate
    rw [count_duplicate_nameIssues hn, count_duplicate_nameIssues hn, h.count_eq]
  · have hnever (names : List String) : issue ∉ nameIssues [] names := fun hmem =>
      (mem_nameIssues hmem).elim hblank hduplicate
    rw [List.count_eq_zero_of_not_mem (hnever names'),
      List.count_eq_zero_of_not_mem (hnever names)]

/-! ### Versions in another order -/

/-- Two issues are alike if they are the same apart from the order of the names of referenceable
versions. -/
inductive VersionIssue.Alike : VersionIssue → VersionIssue → Prop where
  | same (issue : VersionIssue) : Alike issue issue
  | many {names names' : List String} (h : names.Perm names') :
      Alike (.manyReferenceable names) (.manyReferenceable names')

/-- The order of the versions decides on no more than the order in which the referenceable ones are
named. -/
theorem referenceIssue_perm (h : versions'.Perm versions) : Multiset.Rel VersionIssue.Alike
    (referenceIssue versions').toList (referenceIssue versions).toList := by
  have hfilter := h.filter (·.referenceable)
  have hlength := hfilter.length_eq
  rw [referenceIssue, referenceIssue, hlength]
  split_ifs
  · exact .zero
  · exact .cons (.same _) .zero
  · exact .cons (.many (hfilter.map _)) .zero

/-- With versions, the issues are those of the names and then the one of the count. -/
theorem versionIssues_of_ne_nil (h : d.spec.versions ≠ []) : d.versionIssues
    = nameIssues [] (d.spec.versions.map (·.name)) ++ (referenceIssue d.spec.versions).toList := by
  rw [← countIssues_eq]
  unfold Definition.versionIssues
  split
  · next hnone => exact absurd hnone h
  · rfl

/-- Nothing that is found besides the names is a duplicate. -/
theorem count_duplicate_versionIssues : d.versionIssues.count (.duplicate n)
    = (nameIssues [] (d.spec.versions.map (·.name))).count (.duplicate n) := by
  by_cases hnone : d.spec.versions = []
  · simp [Definition.versionIssues, nameIssues, hnone]
  · have hother : VersionIssue.duplicate n ∉ (referenceIssue d.spec.versions).toList := by
      rw [referenceIssue]
      split_ifs <;> simp
    rw [versionIssues_of_ne_nil hnone, List.count_append, List.count_eq_zero_of_not_mem hother,
      Nat.add_zero]

/-- The issues of the same versions in another order are alike. -/
theorem versionIssues_rel (h : d'.spec.versions.Perm d.spec.versions) :
    Multiset.Rel VersionIssue.Alike d'.versionIssues d.versionIssues := by
  by_cases hnone : d.spec.versions = []
  · have hnone' : d'.spec.versions = [] := (hnone ▸ h).eq_nil
    simp only [Definition.versionIssues, hnone, hnone']
    exact .cons (.same _) .zero
  · have hnone' : d'.spec.versions ≠ [] := fun hnil => hnone (hnil ▸ h).symm.eq_nil
    rw [versionIssues_of_ne_nil hnone, versionIssues_of_ne_nil hnone', ← Multiset.coe_add,
      ← Multiset.coe_add]
    have hnames : (nameIssues [] (d'.spec.versions.map (·.name)) : Multiset VersionIssue)
        = nameIssues [] (d.spec.versions.map (·.name)) :=
      Multiset.coe_eq_coe.mpr (nameIssues_perm ((h.map _).map _))
    rw [hnames]
    exact (Multiset.rel_refl_of_refl_on fun issue _ => .same issue).add (referenceIssue_perm h)

/-- **What the lint reports.** Without versions it reports just that. Otherwise it reports, for
each version in order, a blank name, or else a name that an earlier version has; then whether
none or several versions are referenceable. So a name is reported once less often than it is
there, and with the versions in another order the same is reported, as often, apart from the
order of the names of referenceable versions. -/
theorem versionIssues_reported (d : Definition) :
    (d.spec.versions = [] → d.versionIssues = [.noVersions])
      ∧ (d.spec.versions ≠ [] → d.versionIssues
          = (List.range d.spec.versions.length).filterMap (nameIssueAt d.spec.versions)
            ++ (referenceIssue d.spec.versions).toList)
      ∧ (∀ n ∈ trimmedNames d.spec.versions, n ≠ "" →
          d.versionIssues.count (.duplicate n) = (trimmedNames d.spec.versions).count n - 1)
      ∧ (∀ n, n ∉ trimmedNames d.spec.versions ∨ n = "" → .duplicate n ∉ d.versionIssues)
      ∧ ∀ d' : Definition, d'.spec.versions.Perm d.spec.versions →
          (d'.versionIssues = [] ↔ d.versionIssues = [])
            ∧ Multiset.Rel VersionIssue.Alike d'.versionIssues d.versionIssues := by
  refine ⟨fun hnone => by simp only [Definition.versionIssues, hnone], fun hsome => ?_,
    fun n hmem hn => ?_, fun n hn => ?_, fun d' hperm => ⟨?_, versionIssues_rel hperm⟩⟩
  · rw [versionIssues_of_ne_nil hsome, nameIssues_eq_filterMap]
  · rw [count_duplicate_versionIssues, count_duplicate_nameIssues hn, List.map_map]
    rfl
  · rw [← List.count_eq_zero, count_duplicate_versionIssues]
    -- The empty name is reported as blank, never as a duplicate.
    by_cases hempty : n = ""
    · exact List.count_eq_zero_of_not_mem fun hmem => by
        simpa [hempty] using mem_nameIssues hmem
    · have hnone : (trimmedNames d.spec.versions).count n = 0 :=
        List.count_eq_zero_of_not_mem (hn.resolve_right hempty)
      rw [count_duplicate_nameIssues hempty, if_neg List.not_mem_nil, List.map_map]
      exact congrArg (· - 1) hnone
  · have hrel := versionIssues_rel hperm
    refine ⟨fun hnil => ?_, fun hnil => ?_⟩
    · rw [hnil] at hrel
      exact Multiset.coe_eq_zero _ |>.mp (Multiset.rel_zero_left.mp hrel)
    · rw [hnil] at hrel
      exact Multiset.coe_eq_zero _ |>.mp (Multiset.rel_zero_right.mp hrel)

/-- A definition with three copies of a name, which differ in white space, and a blank name
between them. -/
def copiedVersions : Definition :=
  let definition := Definition.new "sizes.example.org" "example.org"
    { kind := "Size", plural := "sizes" }
  { definition with
    spec := { definition.spec with
      versions :=
        [{ name := " v1", referenceable := true }, { name := "v1" }, { name := "\u2003" },
          { name := "v1\t", referenceable := true }] } }

/-- Three versions of one name but for white space, and one without: what is reported, and that any
order of them is reported alike. -/
theorem copiedVersions_reported :
    copiedVersions.versionIssues
        = [.duplicate "v1", .blankName, .duplicate "v1", .manyReferenceable [" v1", "v1\t"]]
      ∧ copiedVersions.versionIssues.count (.duplicate "v1") = 3 - 1
      ∧ ∀ versions, versions.Perm copiedVersions.spec.versions →
          Multiset.Rel VersionIssue.Alike
            { copiedVersions with spec.versions := versions }.versionIssues
            copiedVersions.versionIssues := by
  obtain ⟨_, hsome, hcount, _, hperm⟩ := versionIssues_reported copiedVersions
  refine ⟨(hsome (by decide)).trans (by decide +kernel), ?_, fun versions h => (hperm _ h).2⟩
  exact (hcount "v1" (by decide +kernel) (by decide)).trans (by decide +kernel)

end CompositeCrd
