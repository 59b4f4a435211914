import CompositeCrd.Host.Path
import CompositeCrd.Text.Utf8

/-!
# Hosts

A command runs on a host: something that has files and takes what the command prints. Commands
are written once for any `Host` and so run on the machine as well as on a simulated host that
can be reasoned about.

A host makes one directory at a time. `Host.createDirectories` makes those on the way to it
too.
-/

namespace CompositeCrd

/-- Why a host refuses something. -/
inductive FileError where
  /-- The system refuses, with its own reason and the number of that. -/
  | system (reason : String) (number : Nat)
  /-- The content of a file is no text. -/
  | notText
  /-- No file can have this name, since there is a zero character in it. -/
  | zeroInName
deriving DecidableEq

namespace FileError

/-- The wording of an error. -/
def message : FileError → String
  | .system reason number => reason ++ " (os error " ++ toString number ++ ")"
  | .notText => "stream did not contain valid UTF-8"
  | .zeroInName => "file name contained an unexpected NUL byte"

/-- There is nothing at a path. -/
def notFound : FileError :=
  .system "No such file or directory" 2

/-- There is something where something new was to be. -/
def alreadyExists : FileError :=
  .system "File exists" 17

/-- A path leads through a file. -/
def notDirectory : FileError :=
  .system "Not a directory" 20

/-- There is a directory where a file is asked for. -/
def isDirectory : FileError :=
  .system "Is a directory" 21

/-- A path or one of its names is too long. -/
def nameTooLong : FileError :=
  .system "File name too long" 36

end FileError

/-- What can be at a path. -/
inductive Entry where
  /-- A directory. -/
  | directory
  /-- A file with its content. -/
  | file (bytes : List UInt8)
deriving DecidableEq

/-- The text in a file. -/
def Entry.text : Entry → Except FileError String
  | .directory => .error .isDirectory
  | .file bytes => match Utf8.decode? bytes with
    | some s => .ok s
    | none => .error .notText

/-- What a command needs of the host that it runs on. -/
class Host (m : Type → Type) where
  /-- Gets what is at a path. -/
  find? : String → m (Except FileError Entry)
  /-- Makes a directory in one that is there. -/
  createDirectory : String → m (Except FileError Unit)
  /-- Writes a file, in place of one that is there. -/
  write : String → String → m (Except FileError Unit)
  /-- Prints an answer. -/
  print : String → m Unit
  /-- Prints a message about what goes on. -/
  report : String → m Unit

namespace Host

variable {m : Type → Type} [Monad m] [Host m]

/-- Reads a file as a text. -/
def readText (path : String) : m (Except FileError String) := do
  match ← find? path with
  | .ok entry => return entry.text
  | .error e => return .error e

/-- Whether there is something at a path. -/
def present (path : String) : m Bool := do
  match ← find? path with
  | .ok _ => return true
  | .error _ => return false

/-- Whether there is a directory at a path. -/
def holdsDirectory (path : String) : m Bool := do
  match ← find? path with
  | .ok .directory => return true
  | _ => return false

/-- Makes a directory, the first one given, and those that it lacks, which follow it. One that
is there already is good too. -/
def createNested : List String → m (Except FileError Unit)
  | [] => return .ok ()
  | path :: paths => do
    match ← createDirectory path with
    | .ok () => return .ok ()
    | .error e =>
      -- A directory further up is missing, so that one is made first.
      if e = .notFound then
        match ← createNested paths with
        | .ok () => settle path (← createDirectory path)
        | .error e => return .error e
      else settle path (.error e)
where
  /-- Lets an error pass if the directory is there. -/
  settle (path : String) : Except FileError Unit → m (Except FileError Unit)
    | .ok () => return .ok ()
    | .error e => return if ← holdsDirectory path then .ok () else .error e

/-- Makes a directory and those on the way to it. -/
def createDirectories (path : String) : m (Except FileError Unit) :=
  createNested (path :: Path.above path)

end Host

end CompositeCrd
