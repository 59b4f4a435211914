import CompositeCrd.Command

/-!
# Command lines

A command is given as a list of words: its name, and options in any order. An option begins
with two hyphens and has its value in the same word, after an equals sign, or in the next one,
which must not look like an option then. Each may be given once, except for the variants. Only
the option to be verbose, which has a short form too, may also stand before the name.

`Invocation.ofWords` reads the words from the left, and the first fault or request for help
decides.
-/

namespace CompositeCrd

namespace Arguments

/-- The options. -/
inductive Key where
  | input
  | config
  | variant
  | format
  | output
  | strict
  | force
  | verbose
deriving DecidableEq

instance : Spelled Key where
  all := [.input, .config, .variant, .format, .output, .strict, .force, .verbose]
  spell
    | .input => "input"
    | .config => "config"
    | .variant => "variant"
    | .format => "format"
    | .output => "output"
    | .strict => "strict"
    | .force => "force"
    | .verbose => "verbose"

namespace Key

/-- Whether the option has a value. -/
def takesValue : Key → Bool
  | .strict | .force | .verbose => false
  | _ => true

/-- Whether the option may be given several times. -/
def repeats : Key → Bool
  | .variant => true
  | _ => false

/-- Whether the option can have this value. -/
def admits : Key → String → Bool
  | .variant, s => (Spelled.ofText? s : Option Variant).isSome
  | .format, s => (Spelled.ofText? s : Option OutputFormat).isSome
  | _, s => s != ""

end Key

/-- The names of the commands. -/
inductive Name where
  | render
  | validate
  | established
  | initConfig
deriving DecidableEq

instance : Spelled Name where
  all := [.render, .validate, .established, .initConfig]
  spell
    | .render => "render"
    | .validate => "validate"
    | .established => "established"
    | .initConfig => "init-config"

/-- The options of a command. -/
def Name.keys : Name → List Key
  | .render => [.input, .config, .variant, .format, .output, .strict, .verbose]
  | .validate | .established => [.input, .verbose]
  | .initConfig => [.output, .force, .verbose]

/-- Why words are not carried out as a command. -/
inductive Refusal where
  /-- They ask for help. -/
  | help
  /-- A word cannot stand where it does. -/
  | unexpected (word : String)
  /-- An option has no value or one that it cannot have. -/
  | badValue (key : Key)
  /-- An option is given again. -/
  | repeated (key : Key)
  /-- An option is missing. -/
  | missing (key : Key)
  /-- There is no command. -/
  | noCommand
deriving DecidableEq

/-- What words can be given. -/
def usage : String :=
  "Usage: composite-crd [-v] COMMAND [OPTION]...\n\n"
    ++ "Commands:\n"
    ++ "  render       render the custom resource definitions of a definition\n"
    ++ "                 --input FILE       the definition\n"
    ++ "                 --config FILE      the configuration\n"
    ++ "                 --variant VARIANT  composite or claim; may be repeated\n"
    ++ "                 --format FORMAT    yaml or json\n"
    ++ "                 --output DIR       where to write one file for each variant\n"
    ++ "                 --strict           refuse issues in the versions\n"
    ++ "  validate     check a definition without rendering it\n"
    ++ "                 --input FILE       the definition\n"
    ++ "  established  tell whether a custom resource definition is established\n"
    ++ "                 --input FILE       the custom resource definition or its status\n"
    ++ "  init-config  write the default configuration\n"
    ++ "                 --output FILE      the configuration\n"
    ++ "                 --force            overwrite a file that is there\n\n"
    ++ "Options:\n"
    ++ "  -v, --verbose  report what is rendered\n"
    ++ "  -h, --help     print this text\n"

/-- The wording of a refusal. -/
def Refusal.message : Refusal → String
  | .help => ""
  | .unexpected word => "unexpected argument " ++ Text.quoted word
  | .badValue key => "option --" ++ Spelled.spell key ++ " needs a valid value"
  | .repeated key => "option --" ++ Spelled.spell key ++ " is given twice"
  | .missing key => "option --" ++ Spelled.spell key ++ " is missing"
  | .noCommand => "a command is missing"

/-- Options with their values, which are empty for those that have none. -/
abbrev Given := List (Key × String)

/-- One more option. -/
def Given.add (given : Given) (key : Key) (value : String) : Except Refusal Given :=
  if !key.repeats && given.any (·.1 == key) then .error (.repeated key)
  else .ok (given ++ [(key, value)])

/-- One more option with a value. -/
def Given.assign (given : Given) (key : Key) (value : String) : Except Refusal Given :=
  if key.admits value then given.add key value else .error (.badValue key)

/-- What a word is to the options of a command. -/
inductive Word where
  /-- An option without a value. -/
  | bare (key : Key)
  /-- An option with its value. -/
  | assigned (key : Key) (value : String)
  /-- Short options. -/
  | short (letters : List Char)
  /-- A request for help. -/
  | help
  /-- An option that is not known, or that cannot have a value. -/
  | unknown
  /-- A word that looks like no option. -/
  | plain

/-- What a word with two hyphens is. -/
def Word.long (known : List Key) (cs : List Char) : Word :=
  let name := String.ofList (cs.takeWhile (· != '='))
  match known.find? (Spelled.spell · == name), cs.dropWhile (· != '=') with
  | some key, [] => .bare key
  | some key, _ :: value =>
    if key.takesValue then .assigned key (String.ofList value) else .unknown
  | none, rest => if name == "help" && rest.isEmpty then .help else .unknown

/-- What a word is. -/
def Word.ofText (known : List Key) (word : String) : Word :=
  match word.toList with
  | '-' :: '-' :: c :: cs => .long known (c :: cs)
  | '-' :: '-' :: [] => .plain
  | '-' :: c :: cs => .short (c :: cs)
  | _ => .plain

/-- Whether a word looks like an option, and so is no value. -/
def looksLikeOption (word : String) : Bool :=
  match word.toList with
  | '-' :: _ :: _ => true
  | _ => false

/-- Adds short options. -/
def shortOptions (word : String) : Given → List Char → Except Refusal Given
  | given, [] => .ok given
  | given, 'v' :: cs => do shortOptions word (← given.add .verbose "") cs
  | _, 'h' :: _ => .error .help
  | _, _ => .error (.unexpected word)

/-- Reads options up to the first word that is none, and returns the words from there on. -/
def options (known : List Key) : Given → List String → Except Refusal (Given × List String)
  | given, [] => .ok (given, [])
  | given, word :: words =>
    match Word.ofText known word with
    -- The options end where something else stands.
    | .plain => .ok (given, word :: words)
    | .unknown => .error (.unexpected word)
    | .help => .error .help
    | .short letters => do options known (← shortOptions word given letters) words
    | .assigned key value => do options known (← given.assign key value) words
    | .bare key =>
      if key.takesValue then
        -- The value is the next word, unless that looks like an option of its own.
        match words with
        | [] => .error (.badValue key)
        | value :: words =>
          if looksLikeOption value then .error (.badValue key)
          else do options known (← given.assign key value) words
      else do options known (← given.add key "") words

namespace Given

/-- The value of an option. -/
def value? (given : Given) (key : Key) : Option String :=
  (given.find? (·.1 == key)).map (·.2)

/-- The value of an option that must be given. -/
def required (given : Given) (key : Key) : Except Refusal String :=
  match given.value? key with
  | some value => .ok value
  | none => .error (.missing key)

/-- Whether an option is given. -/
def has (given : Given) (key : Key) : Bool :=
  given.any (·.1 == key)

/-- The values of an option that have a meaning. -/
def all {α : Type} [Spelled α] (given : Given) (key : Key) : List α :=
  (given.filter (·.1 == key)).filterMap fun e => Spelled.ofText? e.2

/-- The command with these options. -/
def command (given : Given) : Name → Except Refusal Command
  | .render => do
    return .render {
      input := ← given.required .input
      config := given.value? .config
      variants := given.all .variant
      -- Only the variant may be given more than once.
      format := (given.all .format).head?
      output := given.value? .output
      strict := given.has .strict }
  | .validate => do return .validate (← given.required .input)
  | .established => do return .established (← given.required .input)
  | .initConfig => do return .initConfig (← given.required .output) (given.has .force)

end Given

/-- What stands after a request for help: commands about which help is wanted, of which there
can only be one, or `help` itself. -/
def help : List String → Refusal
  | [] => .help
  | ["help"] => .help
  | [word] => if (Spelled.ofText? word : Option Name).isSome then .help else .unexpected word
  | _ :: word :: _ => .unexpected word

end Arguments

open Arguments

/-- Reads the words of a command line. -/
def Invocation.ofWords (words : List String) : Except Refusal Invocation := do
  -- In front of the command only the general options may stand.
  let (leading, words) ← options [.verbose] [] words
  match words with
  | [] => .error .noCommand
  | "help" :: words => .error (help words)
  | word :: words =>
    match (Spelled.ofText? word : Option Name) with
    | none => .error (.unexpected word)
    | some name =>
      let (given, rest) ← options name.keys [] words
      match rest with
      -- Nothing may be left over but the mark that ends the options.
      | [] | ["--"] =>
        let command ← given.command name
        return { command, verbose := leading.has .verbose || given.has .verbose }
      | word :: _ => .error (.unexpected word)

end CompositeCrd
