import CompositeCrd.Proofs.Command.Printing

/-!
# Renderings that come to nothing

A rendering can be hindered by its configuration, by its definition, by issues in the versions
where those count, and by any of the variants that it keeps (`RenderRequest.Hindered`). The first
of these is what it fails with (`RenderRequest.FailsWith`), and it fails before anything is
written, however many variants were generated by then: the files and the answers stay as they
are (`hindered_rendering_leaves_all`).
-/

namespace CompositeCrd

variable {request : RenderRequest} {config : Config} {d : Definition} {t : FileTree}
  {variant : Variant} {e : Failure} {words : List String} {verbose : Bool}

namespace RenderRequest

/-- Something stands against the rendering in these files. -/
inductive Hindered (request : RenderRequest) (t : FileTree) : Prop where
  /-- The configuration cannot be read. -/
  | config {e : Failure} (h : t.configIn request.config = .error e)
  /-- The definition cannot be read. -/
  | definition {e : Failure} (h : t.definitionIn request.input = .error e)
  /-- There are issues in the versions, and they count. -/
  | versions {config : Config} {d : Definition} (hconfig : t.configIn request.config = .ok config)
      (hd : t.definitionIn request.input = .ok d)
      (hstrict : request.strict = true ∨ config.strictVersions = true) (h : d.versionIssues ≠ [])
  /-- One of the variants cannot be generated. -/
  | generation {config : Config} {d : Definition} {variant : Variant} {cause : GenerateError}
      (hconfig : t.configIn request.config = .ok config)
      (hd : t.definitionIn request.input = .ok d) (hkept : variant ∈ request.kept config d)
      (h : d.generate variant = .error cause)

/-- The failure is due to what hinders the rendering first. -/
inductive FailsWith (request : RenderRequest) (t : FileTree) : Failure → Prop where
  | config {e : Failure} (h : t.configIn request.config = .error e) : FailsWith request t e
  | definition {config : Config} {e : Failure} (hconfig : t.configIn request.config = .ok config)
      (h : t.definitionIn request.input = .error e) : FailsWith request t e
  | versions {config : Config} {d : Definition} (hconfig : t.configIn request.config = .ok config)
      (hd : t.definitionIn request.input = .ok d)
      (hstrict : request.strict = true ∨ config.strictVersions = true) (h : d.versionIssues ≠ []) :
      FailsWith request t (.versions d.metadata.name d.versionIssues)
  /-- The variants in front of the one that fails were generated. -/
  | generation {config : Config} {d : Definition} {front back : List Variant} {variant : Variant}
      {cause : GenerateError} (hconfig : t.configIn request.config = .ok config)
      (hd : t.definitionIn request.input = .ok d)
      (haccepted : request.strict = false ∧ config.strictVersions = false ∨ d.versionIssues = [])
      (hkept : request.kept config d = front ++ variant :: back)
      (hfront : ∀ other ∈ front, ∃ crd, d.generate other = .ok crd)
      (h : d.generate variant = .error cause) :
      FailsWith request t (.generation variant d.metadata.name cause)

/-- A definition is refused for all its issues, and only if they count. -/
theorem of_refused_ne_nil (h : request.refused config d ≠ []) :
    (request.strict = true ∨ config.strictVersions = true)
      ∧ request.refused config d = d.versionIssues := by
  unfold refused at h ⊢
  split at h
  · next hstrict => exact ⟨Bool.or_eq_true_iff.mp hstrict, if_pos hstrict⟩
  · exact absurd rfl h

/-- A definition that is refused gives no resource definitions. -/
theorem crds_of_refused (h : request.refused config d ≠ []) :
    request.crds config d = .error (.versions d.metadata.name d.versionIssues) := by
  rw [← (of_refused_ne_nil h).2]
  unfold crds
  split
  · next hnone => exact absurd hnone h
  · rfl

/-- When nothing is refused, a request fails at its first variant that cannot be generated. -/
theorem crds_eq_error_of_accepted (h : request.refused config d = []) :
    request.crds config d = .error e ↔
      ∃ front variant back cause, request.kept config d = front ++ variant :: back
        ∧ (∀ other ∈ front, ∃ crd, d.generate other = .ok crd)
        ∧ d.generate variant = .error cause
        ∧ .generation variant d.metadata.name cause = e := by
  unfold crds
  rw [h, ← chosen_eq_kept]
  dsimp only
  rw [mapM_eq_error_iff]
  simp only [mapError_eq_ok, mapError_eq_error]
  exact exists_congr fun _ => exists_congr fun _ => exists_congr fun _ => by
    simp only [exists_and_left]

/-- Rendering fails with the configuration, the definition, or what is made of them. -/
theorem rendered_eq_error : request.rendered t = .error e ↔
    t.configIn request.config = .error e
      ∨ ∃ config, t.configIn request.config = .ok config
        ∧ (t.definitionIn request.input = .error e
          ∨ ∃ d, t.definitionIn request.input = .ok d ∧ request.crds config d = .error e) := by
  have hlast (config : Config) (d : Definition) :
      (request.crds config d >>= fun crds => pure (request.chosenFormat config, crds)) = .error e
        ↔ request.crds config d = .error e := by
    cases request.crds config d <;> simp [pure, Except.pure]
  unfold rendered
  rw [bind_eq_error]
  simp only [bind_eq_error (x := t.definitionIn request.input), hlast]

/-- **A rendering fails with what hinders it first.** -/
theorem rendered_eq_error_iff : request.rendered t = .error e ↔ request.FailsWith t e := by
  rw [rendered_eq_error]
  refine ⟨?_, fun h => ?_⟩
  · rintro (h | ⟨config, hconfig, h | ⟨d, hd, h⟩⟩)
    · exact .config h
    · exact .definition hconfig h
    · -- The definition is refused as a whole, or one variant is the first to fail.
      by_cases hrefused : request.refused config d = []
      · obtain ⟨front, variant, back, cause, hkept, hfront, hcause, rfl⟩ :=
          (crds_eq_error_of_accepted hrefused).mp h
        exact .generation hconfig hd (refused_eq_nil_iff.mp hrefused) hkept hfront hcause
      · obtain ⟨hstrict, hissues⟩ := of_refused_ne_nil hrefused
        rw [crds_of_refused hrefused] at h
        obtain rfl := Except.error.inj h
        exact .versions hconfig hd hstrict (hissues ▸ hrefused)
  · cases h with
    | config h => exact .inl h
    | definition hconfig h => exact .inr ⟨_, hconfig, .inl h⟩
    | @versions config d hconfig hd hstrict h =>
      have hrefused : request.refused config d ≠ [] := by
        unfold refused
        rwa [if_pos (Bool.or_eq_true_iff.mpr hstrict)]
      exact .inr ⟨config, hconfig, .inr ⟨d, hd, crds_of_refused hrefused⟩⟩
    | @generation config d _ _ _ _ hconfig hd haccepted hkept hfront h =>
      have hcrds := (crds_eq_error_of_accepted (refused_eq_nil_iff.mpr haccepted)).mpr
        ⟨_, _, _, _, hkept, hfront, h, rfl⟩
      exact .inr ⟨config, hconfig, .inr ⟨d, hd, hcrds⟩⟩

/-- A rendering fails when something hinders it, and with nothing else. -/
theorem hindered_iff : request.Hindered t ↔ ∃ e, request.rendered t = .error e := by
  refine ⟨fun h => ?_, fun ⟨e, h⟩ => ?_⟩
  · -- Without a failure, all of the parts are there and all of the variants have one.
    cases hrendered : request.rendered t with
    | error e => exact ⟨e, rfl⟩
    | ok r =>
      unfold rendered at hrendered
      obtain ⟨config, hconfig, hrendered⟩ := bind_eq_ok.mp hrendered
      obtain ⟨d, hd, hrendered⟩ := bind_eq_ok.mp hrendered
      obtain ⟨crds, hcrds, -⟩ := bind_eq_ok.mp hrendered
      obtain ⟨haccepted, hgenerated⟩ := exists_crds_iff_possible.mp ⟨crds, hcrds⟩
      exfalso
      -- Whatever hinders contradicts one of these parts.
      cases h with
      | config h => simp [hconfig] at h
      | definition h => simp [hd] at h
      | versions hconfig' hd' hstrict h =>
        obtain rfl := Except.ok.inj (hconfig.symm.trans hconfig')
        obtain rfl := Except.ok.inj (hd.symm.trans hd')
        rcases haccepted with hlenient | hissues
        · simp [hlenient] at hstrict
        · exact h hissues
      | generation hconfig' hd' hkept h =>
        obtain rfl := Except.ok.inj (hconfig.symm.trans hconfig')
        obtain rfl := Except.ok.inj (hd.symm.trans hd')
        obtain ⟨crd, hcrd⟩ := hgenerated _ hkept
        simp [hcrd] at h
  · -- Each failure is a hindrance, when its place in the order is forgotten.
    cases rendered_eq_error_iff.mp h with
    | config hfails => exact .config hfails
    | definition _ hfails => exact .definition hfails
    | versions hconfig hd hstrict hissues => exact .versions hconfig hd hstrict hissues
    | generation hconfig hd _ hkept _ hcause =>
      exact .generation hconfig hd (hkept ▸ List.mem_append_cons_self) hcause

end RenderRequest

/-- **A rendering that is hindered leaves everything as it was**, wherever its output should go:
the files, with the directories, and the answers. Only the failure is reported, which is that of
the first hindrance. -/
theorem hindered_rendering_leaves_all
    (hwords : Invocation.ofWords words = .ok { command := .render request, verbose })
    (s : Session) (h : request.Hindered s.tree) :
    (s.carryOut words).1.code = 1
      ∧ (s.carryOut words).2.tree = s.tree
      ∧ (s.carryOut words).2.answers = s.answers
      ∧ ∃ e, request.FailsWith s.tree e
        ∧ (s.carryOut words).2.messages = s.messages ++ ("error: " ++ e.message ++ "\n") := by
  obtain ⟨e, he⟩ := RenderRequest.hindered_iff.mp h
  rw [Session.carryOut_render_error hwords he]
  exact ⟨rfl, rfl, rfl, e, RenderRequest.rendered_eq_error_iff.mp he, rfl⟩

/-- The manifest of a definition that offers no claim. -/
def unclaimedManifest : String :=
  "metadata:\n  name: big.org\nspec:\n  group: org\n  names:\n    kind: Big\n    plural: bigs\n"

/-- The definition in that manifest. -/
def unclaimed : Definition :=
  .new "big.org" "org" { kind := "Big", plural := "bigs" }

/-- A command line that asks for a file for the composite resource and then for one for a claim. -/
def claimLast : List String :=
  ["render", "--input", "xrd.yaml", "--output", "out", "--variant", "composite", "--variant",
    "claim"]

/-- The request in that command line. -/
def claimLastRequest : RenderRequest where
  input := "xrd.yaml"
  variants := [.composite, .claim]
  output := some "out"

/-- The claim fails behind a composite that does not, and nothing has been stored or said. -/
theorem unclaimedManifest_stored :
    (∃ crd, unclaimed.generate .composite = .ok crd)
      ∧ ((Session.manifest unclaimedManifest).carryOut claimLast).1.code = 1
      ∧ ((Session.manifest unclaimedManifest).carryOut claimLast).2.tree
        = (Session.manifest unclaimedManifest).tree
      ∧ ((Session.manifest unclaimedManifest).carryOut claimLast).2.answers = "" := by
  have hwords : Invocation.ofWords claimLast
      = .ok { command := .render claimLastRequest, verbose := false } := rfl
  have hread : Yaml.Reader.ofText? Definition.form unclaimedManifest = some unclaimed := by
    decide +kernel
  have hhindered : claimLastRequest.Hindered (Session.manifest unclaimedManifest).tree :=
    .generation rfl (definitionIn_manifest hread)
      (.tail _ (.head _)) rfl
  obtain ⟨hcode, htree, hanswers, -⟩ := hindered_rendering_leaves_all hwords _ hhindered
  exact ⟨⟨_, rfl⟩, hcode, htree, hanswers⟩

end CompositeCrd
