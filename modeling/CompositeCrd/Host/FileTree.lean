import CompositeCrd.Host

/-!
# File trees

The files of a simulated host: which directories and files there are, and from where paths are
followed that do not begin at the root.

A path is followed name by name. Everything it leads through must be a directory; a single dot
stays where it is, two dots lead to the directory above, and the root is above itself. What the
last name stands for need not be there, and only a directory may be called with a slash after
its name.
-/

namespace CompositeCrd

/-- A place in a file tree: the names on the way from the root. -/
abbrev Location := List String

/-- The greatest number of bytes in a path. -/
def Path.maxBytes : Nat := 4095

/-- The greatest number of bytes in a name. -/
def Path.maxNameBytes : Nat := 255

/-- What is wrong with a path, whatever files there are. -/
def Path.check (path : String) : Except FileError Unit :=
  if '\x00' ∈ path.toList then .error .zeroInName
  else if path.isEmpty then .error .notFound
  else if maxBytes < (Utf8.encode path).length then .error .nameTooLong
  else .ok ()

/-- The directories and files of a host. -/
structure FileTree where
  /-- Where paths begin that do not begin at the root. -/
  working : Location := []
  /-- What is at each place other than the root. -/
  entries : List (Location × Entry) := []
deriving DecidableEq

namespace FileTree

/-- What is at a place. The root is a directory. -/
def get? (t : FileTree) (place : Location) : Option Entry :=
  if place = [] then some .directory
  else (t.entries.find? (·.1 == place)).map (·.2)

/-- The tree with something new at a place. -/
def put (t : FileTree) (place : Location) (e : Entry) : FileTree :=
  { t with entries := (place, e) :: t.entries.filter (·.1 != place) }

/-- What was put at a place is there, and everything else is as before. -/
theorem get?_put {t : FileTree} {place other : Location} {e : Entry} (h : place ≠ []) :
    (t.put place e).get? other = if other = place then some e else t.get? other := by
  by_cases same : other = place
  · subst same
    simp [get?, put, h]
  · simp only [get?, put, same, if_false]
    split
    · rfl
    · rw [List.find?_cons_of_neg (by simpa using Ne.symm same), List.find?_filter]
      congr 2
      grind

/-- Where a name leads from a place, which must be a directory. -/
def step (t : FileTree) (place : Location) (name : String) : Except FileError Location :=
  match t.get? place with
  | none => .error .notFound
  | some (.file _) => .error .notDirectory
  | some .directory =>
    if name = "." then .ok place
    else if name = ".." then .ok place.dropLast
    -- Only a name that leads down has a limit on its length.
    else if Path.maxNameBytes < (Utf8.encode name).length then .error .nameTooLong
    else .ok (place ++ [name])

/-- The place to which the names of a path lead. -/
def locate (t : FileTree) (path : String) (names : List String) : Except FileError Location :=
  names.foldlM t.step (if Path.rooted path then [] else t.working)

/-- What is at the end of a path. -/
def find? (t : FileTree) (path : String) : Except FileError Entry := do
  Path.check path
  match t.get? (← t.locate path (Path.names path)) with
  | none => .error .notFound
  | some .directory => .ok .directory
  | some (.file bytes) => if Path.closed path then .error .notDirectory else .ok (.file bytes)

/-- The directory to which a path leads without its last name, and that name, if something new
can have it. -/
def destination (t : FileTree) (path : String) :
    Except FileError (Location × Option String) := do
  Path.check path
  let names := Path.names path
  let parent ← t.locate path names.dropLast
  -- The place above must be a directory.
  let _ ← t.step parent "."
  return (parent, names.getLast?.filter fun name => name != "." && name != "..")

/-- Makes a directory. -/
def createDirectory (t : FileTree) (path : String) : Except FileError FileTree := do
  match ← t.destination path with
  | (_, none) => .error .alreadyExists
  | (parent, some name) =>
    let place ← t.step parent name
    if (t.get? place).isSome then .error .alreadyExists else .ok (t.put place .directory)

/-- Writes a file. -/
def write (t : FileTree) (path : String) (bytes : List UInt8) : Except FileError FileTree := do
  match ← t.destination path with
  | (_, none) => .error .isDirectory
  | (parent, some name) =>
    if Path.closed path then .error .isDirectory
    else
      -- What is there is replaced, unless it is a directory.
      let place ← t.step parent name
      if t.get? place = some .directory then .error .isDirectory
      else .ok (t.put place (.file bytes))

end FileTree

/-- A simulated host: its files, and what was printed on it. -/
structure Session where
  /-- The files. -/
  tree : FileTree
  /-- The answers that were printed. -/
  answers : String := ""
  /-- The messages that were printed. -/
  messages : String := ""

namespace Session

/-- The host of commands that run in a session. -/
abbrev Simulated := StateM Session

/-- The session with a change to its files. -/
def changing (change : FileTree → Except FileError FileTree) (s : Session) :
    Except FileError Unit × Session :=
  match change s.tree with
  | .ok tree => (.ok (), { s with tree })
  | .error e => (.error e, s)

instance : Host Simulated where
  find? path s := (s.tree.find? path, s)
  createDirectory path := changing (·.createDirectory path)
  write path text := changing (·.write path (Utf8.encode text))
  print text s := ((), { s with answers := s.answers ++ text })
  report text s := ((), { s with messages := s.messages ++ text })

end Session

end CompositeCrd
