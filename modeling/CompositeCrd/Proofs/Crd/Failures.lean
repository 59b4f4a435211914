import CompositeCrd.Command.Failure
import CompositeCrd.Proofs.Crd.Generation

/-!
# Which error generation reports

Two things can keep a definition from being generated: the names of the claim, which matter for
the claim only, and the schemas of the versions, which are read in order for either variant. The
names are looked at first. Of the schemas the first one that cannot be decoded is reported
(`FirstFailure`), so the versions behind it are of no account.

Hence the composite resource has every error that the schemas can cause for the claim.
-/

namespace CompositeCrd

open Json

/-- The version at position `i` is called `name`, its schema cannot be decoded for this cause,
and every schema before it can. -/
def FirstFailure (versions : List DefinitionVersion) (i : Nat) (name : String)
    (cause : DecodeError) : Prop :=
  ∃ v raw, versions[i]? = some v ∧ v.name = name ∧ v.schema = some raw ∧ raw.node? = .error cause
    ∧ ∀ j < i, ∀ v', versions[j]? = some v' → v'.Decodes

variable {d : Definition} {variant : Variant} {versions : List DefinitionVersion} {name : String}
  {cause : DecodeError} {e : GenerateError} {i : Nat}

/-- Projecting the versions fails with the first schema that cannot be decoded. -/
theorem mapM_generate_eq_error_iff : versions.mapM (·.generate variant) = .error e ↔
    ∃ i name cause, FirstFailure versions i name cause ∧ e = .specProperties name cause := by
  rw [mapM_eq_error_iff_getElem?]
  refine ⟨?_, ?_⟩
  · rintro ⟨i, v, hv, he, hbefore⟩
    obtain ⟨cause, hcause, rfl⟩ := generateVersion_eq_error_iff.mp he
    obtain ⟨raw, hraw, hnode⟩ := specProperties_eq_error_iff.mp hcause
    exact ⟨i, v.name, cause, ⟨v, raw, hv, rfl, hraw, hnode,
      fun j hj v' hv' => exists_generateVersion_iff.mp (hbefore j hj v' hv')⟩, rfl⟩
  · rintro ⟨i, _, cause, ⟨v, raw, hv, rfl, hraw, hnode, hbefore⟩, rfl⟩
    refine ⟨i, v, hv, ?_, fun j hj v' hv' => exists_generateVersion_iff.mpr (hbefore j hj v' hv')⟩
    exact generateVersion_eq_error_iff.mpr
      ⟨cause, specProperties_eq_error_iff.mpr ⟨raw, hraw, hnode⟩, rfl⟩

/-- Only the versions up to the failing one matter. -/
theorem FirstFailure.take_append (h : FirstFailure versions i name cause)
    (later : List DefinitionVersion) :
    FirstFailure (versions.take (i + 1) ++ later) i name cause := by
  obtain ⟨v, raw, hv, hname, hraw, hnode, hbefore⟩ := h
  have hlt : i < versions.length := (List.getElem?_eq_some_iff.mp hv).1
  have hsame : ∀ j ≤ i, (versions.take (i + 1) ++ later)[j]? = versions[j]? := by
    intro j hj
    rw [List.getElem?_append_left (by rw [List.length_take]; omega), List.getElem?_take,
      if_pos (by omega)]
  refine ⟨v, raw, (hsame i le_rfl).trans hv, hname, hraw, hnode, fun j hj v' hv' => ?_⟩
  exact hbefore j hj v' ((hsame j hj.le).symm.trans hv')

/-- The names of the composite resource are never at fault, and those of a claim are reported
as such. -/
theorem identity_ne_specProperties : d.identity variant ≠ .error (.specProperties name cause) := by
  cases variant with
  | composite => simp [Definition.identity]
  | claim =>
    intro h
    obtain ⟨_, -, heq⟩ := identity_claim_eq_error_iff.mp h
    exact absurd heq (by simp)

/-- **A schema is reported exactly when there are names, and then the first that fails.** -/
theorem generate_eq_specProperties_iff :
    d.generate variant = .error (.specProperties name cause) ↔
      (∃ id, d.identity variant = .ok id) ∧ ∃ i, FirstFailure d.spec.versions i name cause := by
  rw [generate_eq_error_iff, mapM_generate_eq_error_iff]
  refine ⟨?_, ?_⟩
  · rintro (h | ⟨hid, i, _, _, hfirst, heq⟩)
    · exact absurd h identity_ne_specProperties
    · obtain ⟨rfl, rfl⟩ := GenerateError.specProperties.inj heq
      exact ⟨hid, i, hfirst⟩
  · rintro ⟨hid, i, hfirst⟩
    exact .inr ⟨hid, i, name, cause, hfirst, rfl⟩

theorem exists_identity_composite (d : Definition) : ∃ id, d.identity .composite = .ok id :=
  ⟨_, rfl⟩

/-- An error of the composite resource is that of a schema. -/
theorem generate_composite_eq_error (h : d.generate .composite = .error e) :
    ∃ name cause, e = .specProperties name cause := by
  rcases generate_eq_error_iff.mp h with h | ⟨-, h⟩
  · exact absurd h (by simp [Definition.identity])
  · obtain ⟨i, name, cause, -, rfl⟩ := mapM_generate_eq_error_iff.mp h
    exact ⟨name, cause, rfl⟩

/-- With names for a claim, both variants fail alike. -/
theorem generate_claim_eq_error_iff {names : ResourceNames} (h : d.checkedClaimNames = .ok names) :
    d.generate .claim = .error e ↔ d.generate .composite = .error e := by
  have hid := exists_identity_claim_iff.mpr ⟨names, h⟩
  have hid' := exists_identity_composite d
  have hclaim : d.identity .claim ≠ .error e := by
    obtain ⟨id, hok⟩ := hid
    rw [hok]
    simp
  have hcomposite : d.identity .composite ≠ .error e := by simp [Definition.identity]
  rw [generate_eq_error_iff, generate_eq_error_iff, mapM_generate_eq_error_iff,
    mapM_generate_eq_error_iff]
  -- What is left is about the schemas, which are the same.
  simp only [hid, hid', hclaim, hcomposite, true_and, false_or]

/-- The names of a claim are reported exactly when they are wrong, whatever the schemas are. -/
theorem generate_claim_eq_claimNames_iff {cause : ClaimNameError} :
    d.generate .claim = .error (.claimNames cause) ↔ d.checkedClaimNames = .error cause := by
  rw [generate_eq_error_iff, identity_claim_eq_error_iff, mapM_generate_eq_error_iff]
  refine ⟨?_, ?_⟩
  · rintro (⟨cause', h, heq⟩ | ⟨-, i, name, _, -, heq⟩)
    · rwa [GenerateError.claimNames.inj heq]
    · exact absurd heq (by simp)
  · intro h
    exact .inl ⟨cause, h, rfl⟩

/-- An error of the composite resource is among the problems of the definition. -/
theorem generation_mem_problems (h : d.generate .composite = .error e) :
    .generation e ∈ d.problems := by
  have hgeneration : Definition.problems.generation d = [.generation e] := by
    rw [Definition.problems.generation, h]
  rw [Definition.problems, hgeneration]
  exact List.mem_append_right _ List.mem_cons_self

/-- **Which error wins.** The composite resource fails for the schemas only, and the claim for
its names first; with names both fail alike, with the first schema that cannot be decoded,
whatever versions come behind it. So what the schemas can do to the claim is among the problems
of the definition, which tries the composite resource only. -/
theorem generate_failures (d : Definition) :
    (∀ names, (∃ crd, ({ d with spec.claimNames := names } : Definition).generate .composite
          = .ok crd) ↔ ∀ v ∈ d.spec.versions, v.Decodes)
      ∧ (∀ cause, d.generate .claim = .error (.claimNames cause)
          ↔ d.checkedClaimNames = .error cause)
      ∧ (∀ names, d.checkedClaimNames = .ok names →
          ((∃ crd, d.generate .claim = .ok crd) ↔ ∃ crd, d.generate .composite = .ok crd)
          ∧ (∀ e, d.generate .claim = .error e ↔ d.generate .composite = .error e)
          ∧ ∀ e, d.generate .composite = .error e → ∃ name cause, e = .specProperties name cause)
      ∧ (∀ variant name cause, d.generate variant = .error (.specProperties name cause) →
          ∃ i, FirstFailure d.spec.versions i name cause
            ∧ ∀ later, ({ d with
                spec.versions := d.spec.versions.take (i + 1) ++ later } : Definition).generate
                variant = .error (.specProperties name cause))
      ∧ ∀ name cause, d.generate .claim = .error (.specProperties name cause) →
          .generation (.specProperties name cause) ∈ d.problems := by
  refine ⟨fun names => ?_, fun cause => generate_claim_eq_claimNames_iff,
    fun names h => ⟨?_, ?_, ?_⟩, fun variant name cause h => ?_, fun name cause h => ?_⟩
  · rw [exists_generate_iff]
    exact and_iff_right (exists_identity_composite _)
  · rw [exists_generate_iff, exists_generate_iff]
    exact and_congr_left fun _ =>
      iff_of_true (exists_identity_claim_iff.mpr ⟨names, h⟩) (exists_identity_composite d)
  · exact fun e => generate_claim_eq_error_iff h
  · exact fun e he => generate_composite_eq_error he
  · obtain ⟨hid, i, hfirst⟩ := generate_eq_specProperties_iff.mp h
    refine ⟨i, hfirst, fun later => generate_eq_specProperties_iff.mpr ⟨?_, i, ?_⟩⟩
    · -- Names are chosen without a look at the versions.
      cases variant <;> exact hid
    · exact hfirst.take_append later
  · obtain ⟨-, hfirst⟩ := generate_eq_specProperties_iff.mp h
    exact generation_mem_problems
      (generate_eq_specProperties_iff.mpr ⟨exists_identity_composite d, hfirst⟩)

end CompositeCrd
