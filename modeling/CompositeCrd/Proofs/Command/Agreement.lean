import CompositeCrd.Proofs.Command.Session
import CompositeCrd.Proofs.Crd.Failures

/-!
# Checking and rendering agree

A definition can be checked, which collects everything that is wrong with it, or rendered
strictly, which stops at the first fault. Both look at the same things: the definition has no
problems exactly when everything that it offers can be rendered strictly
(`exists_crds_strict_iff`). So the two commands end alike on every file, and to be strict only
refuses definitions: what is rendered strictly is rendered alike without
(`validation_agrees_with_strict_rendering`).
-/

namespace CompositeCrd

variable {d : Definition} {config : Config} {crds : List Crd} {request : RenderRequest}
  {variant : Variant} {input : String} {t : FileTree}

/-! ### Definitions without problems -/

/-- There is nothing wrong with a definition when its versions are in order, a claim that it
offers has names of its own, and the composite resource can be generated. -/
theorem problems_eq_nil_iff : d.problems = [] ↔ d.versionIssues = []
    ∧ (d.offersClaim = true → ∃ names, d.checkedClaimNames = .ok names)
    ∧ ∃ crd, d.generate .composite = .ok crd := by
  unfold Definition.problems
  -- Three lists are collected, and each is empty for a reason of its own.
  rw [List.append_eq_nil_iff, List.append_eq_nil_iff, List.map_eq_nil_iff, and_assoc]
  refine and_congr_right fun _ => and_congr ?_ ?_
  · unfold Definition.problems.claimNames
    cases d.offersClaim <;> cases d.checkedClaimNames <;> simp
  · unfold Definition.problems.generation
    cases d.generate .composite <;> simp

/-- A claim can be generated when it has names of its own and the composite resource can be. -/
theorem exists_generate_claim_iff : (∃ crd, d.generate .claim = .ok crd) ↔
    (∃ names, d.checkedClaimNames = .ok names) ∧ ∃ crd, d.generate .composite = .ok crd := by
  rw [exists_generate_iff, exists_identity_claim_iff, exists_generate_iff]
  exact and_congr_right fun _ => (and_iff_right (exists_identity_composite d)).symm

/-- Rendering succeeds when no issue stands against it and every variant can be generated. -/
theorem exists_crds_iff : (∃ crds, request.crds config d = .ok crds) ↔
    request.refused config d = []
      ∧ ∀ variant ∈ request.chosen config d, ∃ crd, d.generate variant = .ok crd := by
  unfold RenderRequest.crds
  cases request.refused config d with
  | cons issue issues => simp
  | nil =>
    simp only [mapM_eq_ok_iff, exists_forall₂_iff, true_and]
    exact forall₂_congr fun variant _ => exists_congr fun crd => mapError_eq_ok

/-- By default the composite resource is rendered, and the claim if there is one to offer. -/
theorem forall_mem_chosen_default {P : Variant → Prop} (h : request.variants = []) :
    (∀ variant ∈ request.chosen {} d, P variant) ↔
      P .composite ∧ (d.offersClaim = true → P .claim) := by
  unfold RenderRequest.chosen
  rw [h]
  cases d.offersClaim <;> simp

/-- **A definition has no problems exactly when it can be rendered strictly.** -/
theorem exists_crds_strict_iff (hvariants : request.variants = [])
    (hstrict : request.strict = true) :
    (∃ crds, request.crds {} d = .ok crds) ↔ d.problems = [] := by
  have hrefused : request.refused {} d = d.versionIssues := by
    unfold RenderRequest.refused
    rw [hstrict]
    rfl
  rw [exists_crds_iff, hrefused, forall_mem_chosen_default hvariants, problems_eq_nil_iff,
    exists_generate_claim_iff]
  -- The claim adds its names to what the composite resource needs already.
  refine and_congr_right fun _ => ⟨?_, ?_⟩
  · rintro ⟨hcomposite, hclaim⟩
    exact ⟨fun hoffers => (hclaim hoffers).1, hcomposite⟩
  · rintro ⟨hnames, hcomposite⟩
    exact ⟨hcomposite, fun hoffers => ⟨hnames hoffers, hcomposite⟩⟩

/-! ### Requests in a file tree -/

/-- To be strict only refuses definitions. -/
theorem crds_of_strict (h : { request with strict := true }.crds config d = .ok crds) :
    request.crds config d = .ok crds := by
  have hstrict := (exists_crds_iff.mp ⟨crds, h⟩).1
  have hissues : d.versionIssues = [] := hstrict
  have hlenient : request.refused config d = [] := by
    unfold RenderRequest.refused
    rw [hissues, ite_self]
  unfold RenderRequest.crds at h ⊢
  rw [hstrict] at h
  rw [hlenient]
  exact h

/-- What a strict request comes to, the same request comes to when it is not strict. -/
theorem rendered_of_strict {r : OutputFormat × List Crd}
    (h : { request with strict := true }.rendered t = .ok r) : request.rendered t = .ok r := by
  unfold RenderRequest.rendered at h ⊢
  obtain ⟨config, hconfig, h⟩ := bind_eq_ok.mp h
  obtain ⟨d, hd, h⟩ := bind_eq_ok.mp h
  obtain ⟨crds, hcrds, h⟩ := bind_eq_ok.mp h
  exact bind_eq_ok.mpr ⟨config, hconfig, bind_eq_ok.mpr ⟨d, hd,
    bind_eq_ok.mpr ⟨crds, crds_of_strict hcrds, h⟩⟩⟩

/-- The strict request without a configuration comes to something when the definition in the
file has no problems. -/
theorem exists_rendered_strict_iff (hconfig : request.config = none)
    (hvariants : request.variants = []) (hstrict : request.strict = true) :
    (∃ r, request.rendered t = .ok r) ↔
      ∃ d, t.definitionIn request.input = .ok d ∧ d.problems = [] := by
  unfold RenderRequest.rendered
  rw [hconfig]
  change (∃ r, (t.definitionIn request.input >>= _) = _) ↔ _
  cases t.definitionIn request.input with
  | error e => simp
  | ok d =>
    have hcrds := exists_crds_strict_iff (d := d) hvariants hstrict
    rw [ok_bind]
    cases h : request.crds {} d with
    | error e => simp_all
    | ok crds => simp_all [pure, Except.pure]

/-! ### The commands -/

/-- **Checking and strict rendering end alike, and to be strict changes nothing that is
rendered.** -/
theorem validation_agrees_with_strict_rendering {validate strict lenient : List String}
    {format : Option OutputFormat} {v v' v'' : Bool}
    (hvalidate : Invocation.ofWords validate = .ok { command := .validate input, verbose := v })
    (hstrict : Invocation.ofWords strict
      = .ok { command := .render { input, format, strict := true }, verbose := v' })
    (hlenient : Invocation.ofWords lenient
      = .ok { command := .render { input, format }, verbose := v'' }) (s : Session) :
    ((s.carryOut validate).1.code = 0 ∧ (s.carryOut strict).1.code = 0
        ∨ (s.carryOut validate).1.code = 1 ∧ (s.carryOut strict).1.code = 1)
      ∧ ((s.carryOut strict).1.code = 0 → (s.carryOut lenient).1.code = 0
        ∧ (s.carryOut lenient).2.answers = (s.carryOut strict).2.answers) := by
  have hiff : (∃ r, ({ input, format, strict := true } : RenderRequest).rendered s.tree = .ok r)
      ↔ ∃ d, s.tree.definitionIn input = .ok d ∧ d.problems = [] :=
    exists_rendered_strict_iff rfl rfl rfl
  -- Checking is compared with what the strict request comes to.
  cases hrendered : ({ input, format, strict := true } : RenderRequest).rendered s.tree with
  | error e =>
    have hfails := Session.carryOut_render_error hstrict hrendered
    rcases Session.carryOut_validate hvalidate (s := s) with ⟨-, hclean⟩ | ⟨hfailed, -⟩
    · obtain ⟨r, hr⟩ := hiff.mpr hclean
      exact absurd (hrendered.symm.trans hr) (by simp)
    · rw [hfails, hfailed]
      exact ⟨.inr ⟨rfl, rfl⟩, fun h => absurd (show (1 : UInt32) = 0 from h) (by decide)⟩
  | ok r =>
    -- The definitions have a text, and it does not depend on how strict the request is.
    obtain ⟨text, htext⟩ := exists_renderAll r.1 r.2
    have hdone := Session.carryOut_render_ok hstrict rfl hrendered htext
    have hlenient' :=
      Session.carryOut_render_ok hlenient rfl (rendered_of_strict hrendered) htext
    rw [hdone, hlenient']
    rcases Session.carryOut_validate hvalidate (s := s) with ⟨hok, -⟩ | ⟨-, hproblems⟩
    · rw [hok]
      exact ⟨.inl ⟨rfl, rfl⟩, fun _ => ⟨rfl, by simp⟩⟩
    · exact absurd (hiff.mp ⟨r, hrendered⟩) hproblems

theorem sizesManifest_agrees :
    let s := Session.manifest sizesManifest
    (s.carryOut ["validate", "--input", "xrd.yaml"]).1.code = 0
      ∧ (s.carryOut ["render", "--strict", "--input", "xrd.yaml"]).1.code = 0
      ∧ (s.carryOut ["render", "--input", "xrd.yaml"]).2.answers
        = (s.carryOut ["render", "--strict", "--input", "xrd.yaml"]).2.answers := by
  intro s
  have hvalidate : Invocation.ofWords ["validate", "--input", "xrd.yaml"]
      = .ok { command := .validate "xrd.yaml", verbose := false } := rfl
  have hstrict : Invocation.ofWords ["render", "--strict", "--input", "xrd.yaml"]
      = .ok { command := .render { input := "xrd.yaml", strict := true }, verbose := false } := rfl
  have hlenient : Invocation.ofWords ["render", "--input", "xrd.yaml"]
      = .ok { command := .render { input := "xrd.yaml" }, verbose := false } := rfl
  obtain ⟨hagree, hsame⟩ :=
    validation_agrees_with_strict_rendering hvalidate hstrict hlenient s
  have hdone : (s.carryOut ["validate", "--input", "xrd.yaml"]).1 = .done := by
    rcases Session.carryOut_validate hvalidate (s := s) with ⟨hdone, -⟩ | ⟨-, hproblems⟩
    · exact hdone
    · exact absurd ⟨sizes, definitionIn_manifest sizesManifest_read, rfl⟩ hproblems
  rw [hdone] at hagree ⊢
  rcases hagree with ⟨-, hstrict⟩ | ⟨hfails, -⟩
  · exact ⟨rfl, hstrict, (hsame hstrict).2⟩
  · exact absurd hfails (by decide)

end CompositeCrd
