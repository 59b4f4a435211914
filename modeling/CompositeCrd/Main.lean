import CompositeCrd.Command.Run

/-!
# The program

The machine as a host, and the program that carries out its command line there.
-/

namespace CompositeCrd

/-- The reason for which the machine refuses. -/
def FileError.ofSystem : IO.Error → FileError
  | .alreadyExists _ number reason
  | .otherError number reason
  | .resourceBusy number reason
  | .resourceVanished number reason
  | .unsupportedOperation number reason
  | .hardwareFault number reason
  | .unsatisfiedConstraints number reason
  | .illegalOperation number reason
  | .protocolError number reason
  | .timeExpired number reason
  | .interrupted _ number reason
  | .noFileOrDirectory _ number reason
  | .invalidArgument _ number reason
  | .permissionDenied _ number reason
  | .resourceExhausted _ number reason
  | .inappropriateType _ number reason
  | .noSuchThing _ number reason => .system reason number.toNat
  | .unexpectedEof => .system "unexpected end of file" 0
  | .userError reason => .system reason 0

/-- Does something with the file at a path, if a file can have that name. -/
def attempt {α : Type} (path : String) (act : IO α) : IO (Except FileError α) := do
  if '\x00' ∈ path.toList then return .error .zeroInName
  try
    return .ok (← act)
  catch e =>
    return .error (.ofSystem e)

instance : Host IO where
  find? path := do
    match ← attempt path (do (← IO.FS.Handle.mk path .read).readBinToEnd) with
    | .ok bytes => return .ok (.file bytes.toList)
    -- A directory can be opened and not be read.
    | .error e => return if e = .isDirectory then .ok .directory else .error e
  createDirectory path := attempt path (IO.FS.createDir path)
  write path text := attempt path (IO.FS.writeFile path text)
  print text := do (← IO.getStdout).putStr text
  report text := do (← IO.getStderr).putStr text

end CompositeCrd

/-- Carries out the command line. -/
def main (words : List String) : IO UInt32 := do
  return (← CompositeCrd.run words).code
