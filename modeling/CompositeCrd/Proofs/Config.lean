import CompositeCrd.Proofs.Command.Session
import CompositeCrd.Proofs.Host.FileTree
import CompositeCrd.Proofs.Yaml.Recall

/-!
# Configurations that are saved

Every configuration can be written to a file, and is what is read from that file again. That the
version may be any text is what makes this more than it seems: it may look like a number or like
nothing, take several lines or have characters that no line can hold, and each such text is
written in a way of its own.

Keys that a configuration file leaves out are written out when the configuration is saved. A
rendering does not tell the two files apart, since all it takes from either is the configuration.
-/

namespace CompositeCrd

open Json (Codec)

variable {config : Config} {path text : String} {t t' : FileTree}

namespace Config

/-- **Every configuration is read from the text that is written for it.** -/
theorem exists_toText? (config : Config) :
    ∃ text, config.toText? = some text ∧ Config.ofText? text = some config := by
  have hvariant (v : Variant) : Spelled.ofText? (Spelled.spell v) = some v := by cases v <;> rfl
  have hformat (f : OutputFormat) : Spelled.ofText? (Spelled.spell f) = some f := by
    cases f <;> rfl
  -- The keys are words, so that they stand in front of their colons without quotes.
  have hword : Yaml.Word "version".toList ∧ Yaml.Word "variants".toList
      ∧ Yaml.Word "format".toList ∧ Yaml.Word "strict_versions".toList := by
    refine ⟨?_, ?_, ?_, ?_⟩ <;>
      exact { plain := by decide, fits := by decide, solid := by simp, head := by simp }
  obtain ⟨hversion, hvariants, hformats, hstrict⟩ := hword
  obtain ⟨v, hv, hread⟩ : ∃ v, config.toValue? = some v
      ∧ Config.ofText? (String.ofList (Yaml.document v)) = some config :=
    Codec.exists_ofText?_document
      (.field hversion Codec.text_recalled.recalled <|
        .field hvariants (Codec.list_recalled (Codec.spelled_recalled hvariant)) <|
        .field hformats (Codec.spelled_recalled hformat).recalled <|
        .field hstrict Codec.flag_recalled .done)
      (by decide) (by simp [Fields.names]) (fun _ => rfl) config
  exact ⟨_, by rw [toText?, hv]; rfl, hread⟩

end Config

namespace FileTree

/-- There is a file with this text at the end of a path. -/
def Holds (t : FileTree) (path text : String) : Prop :=
  (t.find? path).bind Entry.text = .ok text

/-- The configuration in a file is what its text says. -/
theorem Holds.configIn (h : t.Holds path text) (htext : Config.ofText? text = some config) :
    t.configIn (some path) = .ok config := by
  obtain ⟨entry, hentry, hentry_text⟩ := bind_eq_ok.mp h
  have hread : entry.text.toOption.bind Config.ofText? = some config := by
    rw [hentry_text]
    exact htext
  unfold FileTree.configIn
  dsimp only
  rw [hentry, Except.mapError, ok_bind, hread]

/-- A text that is written to a file is in it. -/
theorem holds_of_write (h : t.write path (Utf8.encode text) = .ok t') : t'.Holds path text := by
  -- A path that is closed with a slash leads to no file.
  have hclosed : Path.closed path = false := by
    unfold write at h
    obtain ⟨⟨parent, last⟩, -, h⟩ := bind_eq_ok.mp h
    cases last with
    | none => exact absurd h (by simp)
    | some name =>
      dsimp only at h
      split at h
      · exact absurd h (by simp)
      · next hclosed => simpa using hclosed
  rw [Holds, (puts_of_write h).find?_eq fun _ => hclosed]
  change Entry.text (.file (Utf8.encode text)) = _
  rw [Entry.text, Utf8.decode?_encode]

end FileTree

/-- The request with a configuration file. -/
def RenderRequest.configured (request : RenderRequest) (path : String) : RenderRequest :=
  { request with config := some path }

/-- What is rendered depends on the configuration, not on the file that it is in. -/
theorem RenderRequest.rendered_configured {request : RenderRequest} {path path' : String}
    (hconfig : t.configIn (some path) = .ok config)
    (hconfig' : t'.configIn (some path') = .ok config)
    (hinput : t'.definitionIn request.input = t.definitionIn request.input) :
    (request.configured path').rendered t' = (request.configured path).rendered t := by
  unfold rendered configured
  dsimp only
  rw [hconfig, hconfig', ok_bind, ok_bind, hinput]
  rfl

/-- Configuration files with either of two texts serve a rendering alike. -/
structure ServeAlike (text text' : String) : Prop where
  /-- In two file trees with the same definition, a request comes to the same. -/
  rendered : ∀ ⦃t t' : FileTree⦄ ⦃path path' : String⦄, t.Holds path text → t'.Holds path' text' →
    ∀ request : RenderRequest, t'.definitionIn request.input = t.definitionIn request.input →
      (request.configured path').rendered t' = (request.configured path).rendered t
  /-- In a session with both files, the runs have the same outcome and leave the same. -/
  carryOut : ∀ ⦃s : Session⦄ ⦃path path' : String⦄, s.tree.Holds path text →
    s.tree.Holds path' text' → ∀ (request : RenderRequest) (verbose : Bool) (words words' : _),
      Invocation.ofWords words
        = .ok { command := .render (request.configured path), verbose } →
      Invocation.ofWords words'
        = .ok { command := .render (request.configured path'), verbose } →
      s.carryOut words' = s.carryOut words

theorem serveAlike_of_ofText? {text' : String} (htext : Config.ofText? text = some config)
    (htext' : Config.ofText? text' = some config) : ServeAlike text text' where
  rendered _ _ _ _ hpath hpath' _ hinput :=
    RenderRequest.rendered_configured (hpath.configIn htext) (hpath'.configIn htext') hinput
  carryOut s path path' hpath hpath' request verbose words words' hwords hwords' := by
    have hrendered : (request.configured path').rendered s.tree
        = (request.configured path).rendered s.tree :=
      RenderRequest.rendered_configured (hpath.configIn htext) (hpath'.configIn htext') rfl
    rw [Session.carryOut_eq hwords, Session.carryOut_eq hwords', Invocation.run, Invocation.run,
      Session.perform_runRender, Session.perform_runRender, hrendered]
    rfl

/-- **A configuration that is saved is found again**, and its file serves as well as any other
with the same configuration. -/
theorem saved_config_found (config : Config) :
    ∃ saved, config.toText? = some saved ∧ Config.ofText? saved = some config
      ∧ (∀ (t t' : FileTree) (path : String), t.write path (Utf8.encode saved) = .ok t' →
        t'.configIn (some path) = .ok config)
      ∧ ∀ text, Config.ofText? text = some config → ServeAlike text saved := by
  obtain ⟨saved, hsaved, hread⟩ := config.exists_toText?
  exact ⟨saved, hsaved, hread,
    fun _ _ _ hwrite => (FileTree.holds_of_write hwrite).configIn hread,
    fun _ htext => serveAlike_of_ofText? htext hread⟩

/-- A configuration whose version looks like a number, and that has a variant twice. -/
def twoClaims : Config where
  version := "1.10"
  variants := [.claim, .claim]

/-- A configuration file that leaves out the other keys. -/
def twoClaimsText : String :=
  "version: 1.10\nvariants: [claim, claim]\n"

/-- Files to render with that configuration. -/
def twoClaimsTree : FileTree where
  entries := [(["short.yaml"], .file (Utf8.encode twoClaimsText)),
    (["xrd.yaml"], .file (Utf8.encode sizesManifest))]

/-- The command line that renders with a configuration file. -/
def renderWith (path : String) : List String :=
  ["render", "--input", "xrd.yaml", "--config", path]

/-- How that configuration is saved. -/
def twoClaimsSaved : String :=
  "version: '1.10'\nvariants:\n- claim\n- claim\nformat: yaml\nstrict_versions: false\n"

theorem twoClaims_saved : ∃ t', twoClaims.toText? = some twoClaimsSaved
    ∧ twoClaimsTree.write "saved.yaml" (Utf8.encode twoClaimsSaved) = .ok t'
    ∧ t'.configIn (some "saved.yaml") = .ok twoClaims
    ∧ (RenderRequest.configured { input := "xrd.yaml" } "saved.yaml").rendered t'
      = (RenderRequest.configured { input := "xrd.yaml" } "short.yaml").rendered twoClaimsTree
    ∧ Session.carryOut { tree := t' } (renderWith "saved.yaml")
      = Session.carryOut { tree := t' } (renderWith "short.yaml") := by
  obtain ⟨saved, hsaved, -, hfound, hserves⟩ := saved_config_found twoClaims
  have hknown : twoClaims.toText? = some twoClaimsSaved := by decide +kernel
  -- The quotes keep the version from being read as a number, which it is not in the short file
  -- either, since a text is asked for.
  obtain rfl := Option.some.inj (hsaved.symm.trans hknown)
  have htext : Config.ofText? twoClaimsText = some twoClaims := by decide +kernel
  let t' : FileTree := twoClaimsTree.put ["saved.yaml"] (.file (Utf8.encode twoClaimsSaved))
  have hwrite : twoClaimsTree.write "saved.yaml" (Utf8.encode twoClaimsSaved) = .ok t' := rfl
  have hshort : Entry.text (.file (Utf8.encode twoClaimsText)) = .ok twoClaimsText := by
    rw [Entry.text, Utf8.decode?_encode]
  have hbefore : twoClaimsTree.Holds "short.yaml" twoClaimsText := hshort
  have hbehind : t'.Holds "short.yaml" twoClaimsText := hshort
  have hinput : t'.find? "xrd.yaml" = twoClaimsTree.find? "xrd.yaml" := rfl
  have hdefinition : t'.definitionIn "xrd.yaml" = twoClaimsTree.definitionIn "xrd.yaml" := by
    unfold FileTree.definitionIn
    rw [hinput]
  exact ⟨t', hknown, hwrite, hfound _ _ _ hwrite,
    (hserves _ htext).rendered hbefore (FileTree.holds_of_write hwrite) { input := "xrd.yaml" }
      hdefinition,
    (hserves _ htext).carryOut hbehind (FileTree.holds_of_write hwrite) { input := "xrd.yaml" }
      false _ _ rfl rfl⟩

end CompositeCrd
