import CompositeCrd.Proofs.Command.Agreement

/-!
# Rendering as an answer

Without a directory, rendering prints all definitions as one stream. Which variants there are
depends on where they were asked for: on the command line each of them must be generated, and of
those that are only configured a claim is left out if the definition offers none
(`RenderRequest.kept`). Issues in the versions stand in the way if the request or the
configuration is strict. When nothing stands in the way the request is `Possible`.

A run of a possible request prints the stream of its variants, and any other run fails and
prints nothing (`rendering_prints_selection`).
-/

namespace CompositeCrd

variable {d : Definition} {config : Config} {crds : List Crd} {request : RenderRequest}
  {words : List String} {verbose : Bool} {t : FileTree}

namespace RenderRequest

/-! ### What a request selects -/

/-- The variants that are asked for, or else those that are configured. -/
def selected (request : RenderRequest) (config : Config) : List Variant :=
  if request.variants = [] then config.variants else request.variants

/-- The selected variants, without a claim that was not asked for and that the definition does
not offer. -/
def kept (request : RenderRequest) (config : Config) (d : Definition) : List Variant :=
  if request.variants = [] ∧ d.spec.claimNames = none then
    (request.selected config).filter (· ≠ .claim)
  else request.selected config

/-- Nothing stands against rendering: no issue where issues count, and no variant that cannot be
generated. -/
structure Possible (request : RenderRequest) (config : Config) (d : Definition) : Prop where
  accepted : request.strict = false ∧ config.strictVersions = false ∨ d.versionIssues = []
  generated : ∀ variant ∈ request.kept config d, ∃ crd, d.generate variant = .ok crd

theorem chosen_eq_kept : request.chosen config d = request.kept config d := by
  unfold chosen kept selected Definition.offersClaim
  cases request.variants with
  | cons variant variants => simp
  | nil =>
    cases d.spec.claimNames with
    | none =>
      -- The choice keeps what is no claim or is offered, and nothing is offered.
      simp only [List.isEmpty_nil, if_true, true_and]
      refine List.filter_congr fun variant _ => ?_
      cases variant <;> rfl
    | some names => simp

theorem refused_eq_nil_iff : request.refused config d = [] ↔
    request.strict = false ∧ config.strictVersions = false ∨ d.versionIssues = [] := by
  unfold refused
  cases request.strict <;> cases config.strictVersions <;> simp

/-- **A request comes to something exactly when nothing stands against it.** -/
theorem exists_crds_iff_possible :
    (∃ crds, request.crds config d = .ok crds) ↔ request.Possible config d := by
  rw [exists_crds_iff, refused_eq_nil_iff, chosen_eq_kept]
  exact ⟨fun ⟨accepted, generated⟩ => ⟨accepted, generated⟩,
    fun ⟨accepted, generated⟩ => ⟨accepted, generated⟩⟩

/-- The definitions that a request comes to are those of its variants, in order. -/
theorem forall₂_crds (h : request.crds config d = .ok crds) :
    List.Forall₂ (fun variant crd => d.generate variant = .ok crd) (request.kept config d)
      crds := by
  unfold RenderRequest.crds at h
  rw [(exists_crds_iff.mp ⟨_, h⟩).1, chosen_eq_kept] at h
  exact (mapM_eq_ok_iff.mp h).imp fun _ _ => mapError_eq_ok.mp

/-- What a request comes to, given the configuration and the definition that it names. -/
theorem rendered_eq (hconfig : t.configIn request.config = .ok config)
    (hd : t.definitionIn request.input = .ok d) :
    request.rendered t = (request.crds config d).map (request.chosenFormat config, ·) := by
  unfold rendered
  rw [hconfig, hd, ok_bind, ok_bind]
  cases request.crds config d <;> rfl

end RenderRequest

/-! ### The run -/

open RenderRequest in
/-- **Rendering prints the stream of the variants that are kept, or it fails and prints
nothing.** -/
theorem rendering_prints_selection
    (hwords : Invocation.ofWords words = .ok { command := .render request, verbose })
    (hprint : request.output = none) (s : Session)
    (hconfig : s.tree.configIn request.config = .ok config)
    (hd : s.tree.definitionIn request.input = .ok d) :
    ((s.carryOut words).1.code = 0 ↔ request.Possible config d)
      ∧ (request.Possible config d → ∃ crds text,
        List.Forall₂ (fun variant crd => d.generate variant = .ok crd) (request.kept config d) crds
          ∧ Crd.renderAll (request.format.getD config.format) crds = some text
          ∧ (s.carryOut words).2.answers = s.answers ++ text)
      ∧ (¬request.Possible config d → (s.carryOut words).1.code = 1
        ∧ (s.carryOut words).2.answers = s.answers) := by
  have hrendered := rendered_eq hconfig hd
  cases hcrds : request.crds config d with
  | error e =>
    have himpossible : ¬request.Possible config d := by simp [← exists_crds_iff_possible, hcrds]
    rw [hcrds] at hrendered
    rw [Session.carryOut_render_error hwords hrendered]
    exact ⟨iff_of_false (by simp [Outcome.code]) himpossible, fun h => absurd h himpossible,
      fun _ => ⟨rfl, rfl⟩⟩
  | ok crds =>
    have hpossible : request.Possible config d := exists_crds_iff_possible.mp ⟨crds, hcrds⟩
    rw [hcrds] at hrendered
    -- What was rendered has a text, so that printing it cannot fail.
    obtain ⟨text, htext⟩ := exists_renderAll (request.chosenFormat config) crds
    rw [Session.carryOut_render_ok hwords hprint hrendered htext]
    refine ⟨iff_of_true rfl hpossible, fun _ => ⟨crds, text, forall₂_crds hcrds, htext, ?_⟩,
      fun h => absurd hpossible h⟩
    rw [Session.printing_answers, Session.announcing_answers]

/-- A command line that asks for the claim in front of the composite resource. -/
def claimFirst : List String :=
  ["render", "--strict", "--variant", "claim", "--input", "xrd.yaml", "--format", "json",
    "--variant", "composite"]

/-- The request in that command line. -/
def claimFirstRequest : RenderRequest where
  input := "xrd.yaml"
  variants := [.claim, .composite]
  format := some .json
  strict := true

theorem sizesManifest_printed : ∃ composite claim text,
    sizes.generate .composite = .ok composite ∧ sizes.generate .claim = .ok claim
      ∧ Crd.renderAll .json [claim, composite] = some text
      ∧ ((Session.manifest sizesManifest).carryOut claimFirst).1.code = 0
      ∧ ((Session.manifest sizesManifest).carryOut claimFirst).2.answers = text := by
  have hwords : Invocation.ofWords claimFirst
      = .ok { command := .render claimFirstRequest, verbose := false } := rfl
  have hconfig : (Session.manifest sizesManifest).tree.configIn none = .ok {} := rfl
  obtain ⟨hcode, hprinted, -⟩ := rendering_prints_selection hwords rfl
    (Session.manifest sizesManifest) hconfig (definitionIn_manifest sizesManifest_read)
  obtain ⟨composite, hcomposite⟩ : ∃ crd, sizes.generate .composite = .ok crd := ⟨_, rfl⟩
  obtain ⟨claim, hclaim⟩ : ∃ crd, sizes.generate .claim = .ok crd := ⟨_, rfl⟩
  have hpossible : claimFirstRequest.Possible {} sizes := by
    refine ⟨.inr (by decide +kernel), ?_⟩
    rintro (_ | _) -
    · exact ⟨composite, hcomposite⟩
    · exact ⟨claim, hclaim⟩
  obtain ⟨crds, text, hcrds, htext, hanswers⟩ := hprinted hpossible
  -- There is one definition for each of the two variants, in their order.
  change List.Forall₂ _ [Variant.claim, .composite] crds at hcrds
  rcases hcrds with _ | ⟨h, _ | ⟨h', _ | _⟩⟩
  obtain rfl := Except.ok.inj (hclaim.symm.trans h)
  obtain rfl := Except.ok.inj (hcomposite.symm.trans h')
  exact ⟨composite, claim, text, hcomposite, hclaim, htext, hcode.mpr hpossible,
    hanswers.trans String.empty_append⟩

end CompositeCrd
