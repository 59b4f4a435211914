import CompositeCrd.Command.Run
import CompositeCrd.Host.FileTree
import CompositeCrd.Proofs.Crd.Listing

/-!
# Commands in a session

On the simulated host a command is a function from one session to the next. Reading changes
nothing, so what a command reads and decides is a function of the files alone
(`FileTree.definitionIn`, `FileTree.configIn`, `RenderRequest.rendered`), and only what it then
prints or writes shows in the session (`perform_runRender`, `perform_runValidate`).

`Session.carryOut` is a whole run of a command line: its outcome, whose code is the exit code,
and the session that it leaves.
-/

namespace CompositeCrd

open Session (Simulated)

variable {α β : Type} {s : Session} {t : FileTree} {format : OutputFormat} {crds : List Crd}
  {verbose : Bool} {request : RenderRequest} {input : String}

namespace Session

/-! ### Chains of commands -/

/-- What a command gives in a session, and the session that it leaves. -/
def perform (s : Session) (act : Running Simulated α) : Except Failure α × Session :=
  act.run.run s

/-- A whole run of a command line. -/
def carryOut (s : Session) (words : List String) : Outcome × Session :=
  (CompositeCrd.run words : Simulated Outcome).run s

/-- The session with more answers. -/
def printing (s : Session) (text : String) : Session :=
  { s with answers := s.answers ++ text }

/-- The session with more messages. -/
def reporting (s : Session) (text : String) : Session :=
  { s with messages := s.messages ++ text }

@[simp] theorem reporting_tree (text : String) : (s.reporting text).tree = s.tree := rfl

@[simp] theorem printing_answers (text : String) :
    (s.printing text).answers = s.answers ++ text := rfl

@[simp] theorem reporting_answers (text : String) : (s.reporting text).answers = s.answers := rfl

/-- Two reports are one with both texts. -/
theorem reporting_reporting (text text' : String) :
    (s.reporting text).reporting text' = s.reporting (text ++ text') := by
  unfold reporting
  rw [String.append_assoc]

/-- A chain goes on in the session that its first command leaves, and stops at a failure. -/
theorem perform_bind (act : Running Simulated α) (f : α → Running Simulated β) :
    s.perform (act >>= f) = match s.perform act with
      | (.ok a, s') => s'.perform (f a)
      | (.error e, s') => (.error e, s') := by
  unfold perform
  rw [ExceptT.run_bind, StateT.run_bind]
  rcases act.run.run s with ⟨_ | _, _⟩ <;> rfl

theorem perform_lift (act : Simulated α) :
    s.perform (liftM act : Running Simulated α) = (.ok (act.run s).1, (act.run s).2) := rfl

@[simp] theorem perform_liftExcept (r : Except Failure α) :
    s.perform (liftExcept r) = (r, s) := by
  cases r <;> rfl

@[simp] theorem perform_printLine (line : String) :
    s.perform (printLine line) = (.ok (), s.printing (line ++ "\n")) := rfl

/-- A definition that was rendered is reported by its name. -/
@[simp] theorem perform_reportRendered (crd : Crd) : s.perform (reportRendered crd)
    = (.ok (), s.reporting ("rendered " ++ Text.quoted crd.metadata.name ++ "\n")) := rfl

/-- The answer of the host, whose errors become failures. -/
theorem perform_asking (failure : FileError → Failure) (act : Simulated (Except FileError α)) :
    s.perform (asking failure act) = ((act.run s).1.mapError failure, (act.run s).2) := by
  unfold asking
  rw [perform_bind, perform_lift]
  cases (act.run s).1 <;> rfl

/-- One command after another for the elements of a list, none of which fails. -/
theorem perform_forM {f : α → Running Simulated Unit} {effect : Session → α → Session}
    (h : ∀ s x, s.perform (f x) = (.ok (), effect s x)) (xs : List α) :
    s.perform (xs.forM f) = (.ok (), xs.foldl effect s) := by
  induction xs generalizing s with
  | nil => rfl
  | cons x xs ih =>
    rw [List.forM_eq_forM, List.forM_cons, perform_bind, h, List.foldl_cons]
    exact ih

end Session

namespace FileTree

/-! ### What a command reads -/

/-- The definition in a file. -/
def definitionIn (t : FileTree) (path : String) : Except Failure Definition := do
  let text ← ((t.find? path).bind Entry.text).mapError (.unreadable path)
  match Yaml.Reader.ofText? Definition.form text with
  | some d => .ok d
  | none => .error (.noDefinition path)

/-- A definition is found in a file with a text that is read as one. -/
theorem definitionIn_eq_ok_iff {path : String} {d : Definition} :
    t.definitionIn path = .ok d ↔ ∃ text, (t.find? path).bind Entry.text = .ok text
      ∧ Yaml.Reader.ofText? Definition.form text = some d := by
  unfold definitionIn
  rw [bind_eq_ok]
  refine exists_congr fun text => and_congr mapError_eq_ok ?_
  cases Yaml.Reader.ofText? Definition.form text <;> simp

/-- The configuration in a file, or the default one. -/
def configIn (t : FileTree) : Option String → Except Failure Config
  | none => .ok {}
  | some path => do
    let entry ← (t.find? path).mapError fun e => .config path (.file e)
    match entry.text.toOption.bind Config.ofText? with
    | some config => .ok config
    | none => .error (.config path .content)

end FileTree

/-- What a request to render comes to in a file tree: a format, and the definitions to write. -/
def RenderRequest.rendered (request : RenderRequest) (t : FileTree) :
    Except Failure (OutputFormat × List Crd) := do
  let config ← t.configIn request.config
  let d ← t.definitionIn request.input
  let crds ← request.crds config d
  return (request.chosenFormat config, crds)

/-- Without a configuration, the definition in the file decides alone. -/
theorem rendered_of_crds {d : Definition} (hconfig : request.config = none)
    (hd : t.definitionIn request.input = .ok d) (hcrds : request.crds {} d = .ok crds) :
    request.rendered t = .ok (request.chosenFormat {}, crds) := by
  unfold RenderRequest.rendered
  rw [hconfig, hd]
  change (request.crds {} d >>= _) = _
  rw [hcrds]
  rfl

namespace Session

theorem run_find? (path : String) :
    (Host.find? path : Simulated (Except FileError Entry)).run s = (s.tree.find? path, s) := rfl

/-- Reading a text leaves the session as it is. -/
theorem run_readText (path : String) :
    (Host.readText path : Simulated (Except FileError String)).run s
      = ((s.tree.find? path).bind Entry.text, s) := by
  unfold Host.readText
  rw [StateT.run_bind, run_find?]
  cases s.tree.find? path <;> rfl

/-- Reading a definition leaves the session as it is. -/
theorem perform_readDefinition (path : String) :
    s.perform (readDefinition path) = (s.tree.definitionIn path, s) := by
  unfold readDefinition FileTree.definitionIn
  rw [perform_bind, perform_asking, run_readText]
  cases (s.tree.find? path).bind Entry.text with
  | error e => rfl
  | ok text =>
    -- The text is read the same way on both sides, once as an answer and once as an error.
    change s.perform (match Yaml.Reader.ofText? Definition.form text with
      | some d => pure d
      | none => throw (.noDefinition path)) = (match Yaml.Reader.ofText? Definition.form text with
      | some d => .ok d
      | none => .error (.noDefinition path), s)
    cases Yaml.Reader.ofText? Definition.form text <;> rfl

/-- Reading a configuration leaves the session as it is. -/
theorem perform_readConfig (path : String) :
    s.perform (readConfig path) = (s.tree.configIn (some path), s) := by
  unfold readConfig FileTree.configIn
  rw [perform_bind, perform_asking, run_find?]
  dsimp only
  cases s.tree.find? path with
  | error e => rfl
  | ok entry =>
    dsimp only [Except.mapError]
    rw [ok_bind]
    cases entry.text.toOption.bind Config.ofText? <;> rfl

/-- What is done with the configuration, which is read only if there is a file for it. -/
theorem perform_config (path : Option String) (f : Config → Running Simulated α) :
    s.perform (match path with
      | none => pure {} >>= f
      | some path => readConfig path >>= f) = match s.tree.configIn path with
        | .ok config => s.perform (f config)
        | .error e => (.error e, s) := by
  -- The command reads the file inside a branch, the function of the files does not.
  cases path with
  | none => rfl
  | some path =>
    rw [perform_bind, perform_readConfig]
    cases s.tree.configIn (some path) <;> rfl

/-! ### What a command leaves -/

/-- The session in which it was reported what is rendered. -/
def announcing (s : Session) (verbose : Bool) (crds : List Crd) : Session :=
  if verbose then
    crds.foldl (fun s crd => s.reporting ("rendered " ++ Text.quoted crd.metadata.name ++ "\n")) s
  else s

/-- Reports change neither the files nor the answers. -/
theorem announcing_eq (s : Session) (verbose : Bool) (crds : List Crd) :
    ∃ text, s.announcing verbose crds = s.reporting text := by
  unfold announcing
  split
  · induction crds generalizing s with
    | nil => exact ⟨"", by simp [reporting]⟩
    | cons crd crds ih =>
      rw [List.foldl_cons]
      obtain ⟨text, htext⟩ := ih _
      exact ⟨_, htext.trans (reporting_reporting _ _)⟩
  · exact ⟨"", by simp [reporting]⟩

/-- Announcing definitions changes no file. -/
@[simp] theorem announcing_tree : (s.announcing verbose crds).tree = s.tree := by
  obtain ⟨text, h⟩ := s.announcing_eq verbose crds
  rw [h, reporting_tree]

/-- Announcing definitions prints no answer. -/
@[simp] theorem announcing_answers : (s.announcing verbose crds).answers = s.answers := by
  obtain ⟨text, h⟩ := s.announcing_eq verbose crds
  rw [h, reporting_answers]

end Session

/-- Writes the definitions that are asked for, to a directory or as an answer. -/
def deliver (output : Option String) (format : OutputFormat) (crds : List Crd) :
    Running Simulated Outcome := do
  match output with
  | none => printAll format crds
  | some directory => store directory format crds
  return .done

namespace Session

/-- **Rendering first decides, by the files alone, and then reports and writes.** -/
theorem perform_runRender :
    s.perform (Command.runRender verbose request) = match request.rendered s.tree with
      | .error e => (.error e, s)
      | .ok (format, crds) =>
        (s.announcing verbose crds).perform (deliver request.output format crds) := by
  unfold Command.runRender RenderRequest.rendered
  refine (perform_config _ _).trans ?_
  -- Each of the three steps fails with the session as it was, or goes on.
  cases s.tree.configIn request.config with
  | error e => rfl
  | ok config =>
    rw [ok_bind]
    dsimp only
    rw [perform_bind, perform_readDefinition]
    cases s.tree.definitionIn request.input with
    | error e => rfl
    | ok d =>
      rw [ok_bind]
      dsimp only
      rw [perform_bind, perform_liftExcept]
      cases request.crds config d with
      | error e => rfl
      | ok crds =>
        rw [ok_bind]
        dsimp only
        -- Whether there are reports is asked before what is written.
        cases verbose with
        | false => cases request.output <;> rfl
        | true =>
          rw [if_pos rfl, perform_bind, perform_forM fun _ crd => perform_reportRendered crd]
          cases request.output <;> rfl

/-- Without a directory the definitions are printed, which cannot fail. -/
theorem perform_deliver_none {text : String} (h : Crd.renderAll format crds = some text) :
    s.perform (deliver none format crds) = (.ok .done, s.printing text) := by
  unfold deliver printAll
  rw [h]
  rfl

/-- **Checking finds nothing, or it prints the problems and fails.** -/
theorem perform_runValidate :
    s.perform (Command.runValidate input) = match s.tree.definitionIn input with
      | .error e => (.error e, s)
      | .ok d => match d.problems with
        | [] => (.ok .done, s.printing (d.metadata.name ++ ": ok" ++ "\n"))
        | problems => (.error (.problems problems.length input), problems.foldl (fun s problem =>
            s.printing (d.metadata.name ++ ": " ++ problem.message ++ "\n")) s) := by
  unfold Command.runValidate
  rw [perform_bind, perform_readDefinition]
  cases s.tree.definitionIn input with
  | error e => rfl
  | ok d =>
    dsimp only
    cases d.problems with
    | nil => rfl
    | cons problem problems =>
      dsimp only
      rw [perform_bind, perform_forM fun _ _ => perform_printLine _]
      rfl

/-! ### Whole runs -/

/-- A command line is carried out as its command, whose failure is reported. -/
theorem carryOut_eq {words : List String} {i : Invocation} (h : Invocation.ofWords words = .ok i) :
    s.carryOut words = match s.perform i.run with
      | (.ok outcome, s') => (outcome, s')
      | (.error failure, s') =>
        (.failed, s'.reporting ("error: " ++ failure.message ++ "\n")) := by
  unfold carryOut CompositeCrd.run
  rw [h]
  dsimp only
  rw [StateT.run_bind]
  unfold perform ExceptT.run
  rcases StateT.run (i.run : Running Simulated Outcome) s with ⟨_ | _, _⟩ <;> rfl

section Rendering

variable {words : List String} {e : Failure} {text : String}
  (hwords : Invocation.ofWords words = .ok { command := .render request, verbose })

include hwords

/-- Nothing but a message is left of a rendering that fails before it writes. -/
theorem carryOut_render_error (h : request.rendered s.tree = .error e) :
    s.carryOut words = (.failed, s.reporting ("error: " ++ e.message ++ "\n")) := by
  rw [carryOut_eq hwords, Invocation.run, perform_runRender, h]

/-- A rendering that is not to be stored prints the definitions. -/
theorem carryOut_render_ok (hprint : request.output = none)
    (h : request.rendered s.tree = .ok (format, crds))
    (htext : Crd.renderAll format crds = some text) :
    s.carryOut words = (.done, (s.announcing verbose crds).printing text) := by
  rw [carryOut_eq hwords, Invocation.run, perform_runRender, h]
  dsimp only
  rw [hprint, perform_deliver_none htext]

end Rendering

/-- Checking has done what was asked if there is a definition without problems, and else it
fails. -/
theorem carryOut_validate {words : List String}
    (hwords : Invocation.ofWords words = .ok { command := .validate input, verbose }) :
    (s.carryOut words).1 = .done ∧ (∃ d, s.tree.definitionIn input = .ok d ∧ d.problems = [])
      ∨ (s.carryOut words).1 = .failed
        ∧ ¬∃ d, s.tree.definitionIn input = .ok d ∧ d.problems = [] := by
  rw [carryOut_eq hwords, Invocation.run, perform_runValidate]
  cases s.tree.definitionIn input with
  | error e => exact .inr ⟨rfl, by simp⟩
  | ok d =>
    cases hproblems : d.problems with
    | nil => exact .inl ⟨by simp [hproblems], d, rfl, hproblems⟩
    | cons problem problems => exact .inr ⟨by simp [hproblems], by simp [hproblems]⟩

end Session

/-! ### A manifest to run commands on -/

/-- A session with nothing but a manifest. -/
def Session.manifest (text : String) : Session where
  tree.entries := [(["xrd.yaml"], .file (Utf8.encode text))]

/-- The manifest is found under its name. -/
theorem find?_manifest (text : String) :
    ((Session.manifest text).tree.find? "xrd.yaml").bind Entry.text = .ok text := by
  change Entry.text (.file (Utf8.encode text)) = _
  rw [Entry.text, Utf8.decode?_encode]

/-- A manifest that is read as a definition is found as that. -/
theorem definitionIn_manifest {text : String} {d : Definition}
    (h : Yaml.Reader.ofText? Definition.form text = some d) :
    (Session.manifest text).tree.definitionIn "xrd.yaml" = .ok d :=
  FileTree.definitionIn_eq_ok_iff.mpr ⟨text, find?_manifest text, h⟩

/-- The manifest of a definition that offers a claim. -/
def sizesManifest : String :=
  "metadata:\n  name: big.org\nspec:\n  group: org\n  names:\n    kind: Big\n    plural: bigs\n"
    ++ "  claimNames:\n    kind: Size\n    plural: sizes\n"
    ++ "  versions:\n  - name: v1\n    served: true\n    referenceable: true\n"

/-- The definition in that manifest. -/
def sizes : Definition :=
  (Definition.new "big.org" "org" { kind := "Big", plural := "bigs" }
    |>.withClaimNames { kind := "Size", plural := "sizes" }).withVersion
      { name := "v1", referenceable := true }

/-- The manifest of the sizes is read as their definition. -/
theorem sizesManifest_read : Yaml.Reader.ofText? Definition.form sizesManifest = some sizes := by
  decide +kernel

end CompositeCrd
