import CompositeCrd.Command.Arguments
import CompositeCrd.Command.Failure
import CompositeCrd.Config
import CompositeCrd.Yaml.Dynamic

/-!
# Running commands

A command first reads its files, then decides what its answer is, and last writes or prints
the answer. What is decided is said by functions without effects (`RenderRequest.crds`,
`Definition.problems`, `establishedIn`), so a command that fails before it writes has changed
nothing.

`run` carries out a command line and gives the exit code.
-/

namespace CompositeCrd

/-- How a run ends. -/
inductive Outcome where
  /-- The command has done what was asked. -/
  | done
  /-- The command has answered that something is not so. -/
  | negative
  /-- The command has failed. -/
  | failed
  /-- There was no command to carry out. -/
  | misused
deriving DecidableEq

/-- The exit code. -/
def Outcome.code : Outcome → UInt32
  | .done => 0
  | .negative => 2
  | .failed => 1
  | .misused => 2

namespace RenderRequest

/-- The variants to render. What is asked for is rendered or else fails; of what is only
configured, a claim that the definition does not offer is left out. -/
def chosen (request : RenderRequest) (config : Config) (d : Definition) : List Variant :=
  if request.variants.isEmpty then
    config.variants.filter fun variant => variant != .claim || d.offersClaim
  else request.variants

/-- The format to write. -/
def chosenFormat (request : RenderRequest) (config : Config) : OutputFormat :=
  request.format.getD config.format

/-- The issues for which a definition is refused. -/
def refused (request : RenderRequest) (config : Config) (d : Definition) : List VersionIssue :=
  if request.strict || config.strictVersions then d.versionIssues else []

/-- The custom resource definitions that are asked for. -/
def crds (request : RenderRequest) (config : Config) (d : Definition) :
    Except Failure (List Crd) :=
  match request.refused config d with
  | [] => (request.chosen config d).mapM fun variant =>
    (d.generate variant).mapError (.generation variant d.metadata.name)
  | issues => .error (.versions d.metadata.name issues)

end RenderRequest

/-- The file for a custom resource definition in a directory. -/
def Crd.file (directory : String) (format : OutputFormat) (crd : Crd) : String :=
  Path.join directory (crd.metadata.name ++ "." ++ format.extension)

/-- What the document in a file says about whether a custom resource definition is established.
The document is the definition or only its status. -/
def establishedIn (path text : String) : Except Failure Bool :=
  match Yaml.Dynamic.ofText? text with
  | none => .error (.noDocument path)
  | some document =>
    match Yaml.Extract.read CrdStatus.form ((document.get? "status").getD document) with
    | none => .error (.noStatus path)
    | some status => .ok status.established

section Running

variable {m : Type → Type} [Monad m] [Host m]

/-- Commands that can fail. -/
abbrev Running (m : Type → Type) := ExceptT Failure m

/-- The answer of the host, whose errors become failures. -/
def asking {α : Type} (failure : FileError → Failure) (act : m (Except FileError α)) :
    Running m α := do
  match ← (act : m _) with
  | .ok a => return a
  | .error e => throw (failure e)

/-- Reads a configuration file. A directory can be opened, but holds no configuration. -/
def readConfig (path : String) : Running m Config := do
  let entry ← asking (fun e => .config path (.file e)) (Host.find? path)
  match entry.text.toOption.bind Config.ofText? with
  | some config => return config
  | none => throw (.config path .content)

/-- Reads a definition from a file. -/
def readDefinition (path : String) : Running m Definition := do
  let text ← asking (.unreadable path) (Host.readText path)
  match Yaml.Reader.ofText? Definition.form text with
  | some d => return d
  | none => throw (.noDefinition path)

/-- Prints a line. -/
def printLine (line : String) : Running m Unit :=
  liftM (Host.print (line ++ "\n") : m Unit)

/-- Writes one file for each custom resource definition into a directory. -/
def store (directory : String) (format : OutputFormat) (crds : List Crd) : Running m Unit := do
  asking (.directory directory) (Host.createDirectories directory)
  crds.forM fun crd => do
    let path := crd.file directory format
    -- Files that were written stay when a later one fails.
    match crd.render format with
    | none => throw .unwritten
    | some text => asking (.unwritable path) (Host.write path text)
    printLine ("Wrote " ++ path)

/-- Prints custom resource definitions. -/
def printAll (format : OutputFormat) (crds : List Crd) : Running m Unit :=
  match Crd.renderAll format crds with
  | none => throw .unwritten
  | some text => liftM (Host.print text : m Unit)

/-- Reports that a custom resource definition was rendered. -/
def reportRendered (crd : Crd) : Running m Unit :=
  liftM (Host.report ("rendered " ++ Text.quoted crd.metadata.name ++ "\n") : m Unit)

namespace Command

/-- Renders a definition. -/
def runRender (verbose : Bool) (request : RenderRequest) : Running m Outcome := do
  let config ← match request.config with
    | none => pure {}
    | some path => readConfig path
  let d ← readDefinition request.input
  -- All of them are generated before anything is written.
  let crds ← liftExcept (request.crds config d)
  if verbose then crds.forM reportRendered
  let format := request.chosenFormat config
  match request.output with
  | none => printAll format crds
  | some directory => store directory format crds
  return .done

/-- Checks the definition in a file. -/
def runValidate (input : String) : Running m Outcome := do
  let d ← readDefinition input
  match d.problems with
  | [] =>
    printLine (d.metadata.name ++ ": ok")
    return .done
  | problems =>
    problems.forM fun problem => printLine (d.metadata.name ++ ": " ++ problem.message)
    -- The problems are an answer, and that there are some is a failure.
    throw (.problems problems.length input)

/-- Tells whether what is in a file is established. -/
def runEstablished (input : String) : Running m Outcome := do
  let text ← asking (.unreadable input) (Host.readText input)
  if ← liftExcept (establishedIn input text) then
    printLine "established"
    return .done
  else
    printLine "not established"
    return .negative

/-- Writes the default configuration. -/
def runInitConfig (output : String) (force : Bool) : Running m Outcome := do
  if !force && (← liftM (Host.present output : m Bool)) then
    throw (.present output)
  match ({} : Config).toText? with
  | none => throw .unwritten
  | some text => asking (.unwritableConfig output) (Host.write output text)
  printLine ("Wrote " ++ output)
  return .done

end Command

/-- Carries out a command. -/
def Invocation.run (i : Invocation) : Running m Outcome :=
  match i.command with
  | .render request => Command.runRender i.verbose request
  | .validate input => Command.runValidate input
  | .established input => Command.runEstablished input
  | .initConfig output force => Command.runInitConfig output force

/-- Carries out a command line. What is wrong is reported. -/
def run (words : List String) : m Outcome := do
  match Invocation.ofWords words with
  | .error .help =>
    Host.print Arguments.usage
    return .done
  | .error refusal =>
    Host.report ("error: " ++ refusal.message ++ "\n\n" ++ Arguments.usage)
    return .misused
  | .ok invocation =>
    match ← invocation.run with
    | .ok outcome => return outcome
    | .error failure =>
      Host.report ("error: " ++ failure.message ++ "\n")
      return .failed

end Running

end CompositeCrd
