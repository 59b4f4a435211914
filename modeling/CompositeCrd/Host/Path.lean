/-!
# Paths

A path names a file by the names on the way to it, with slashes between them. It begins at the
root if a slash comes first, and else at the directory in which a command works. Slashes may be
repeated; one at the end tells that the path is meant to lead to a directory.
-/

namespace CompositeCrd.Path

/-- The stretches between slashes. -/
def stretches : List Char → List (List Char)
  | [] => [[]]
  | c :: cs =>
    if c = '/' then [] :: stretches cs
    else match stretches cs with
      | [] => [[c]]
      | name :: names => (c :: name) :: names

/-- The names on the way. -/
def names (path : String) : List String :=
  ((stretches path.toList).filter (!·.isEmpty)).map String.ofList

/-- Whether a path begins at the root. -/
def rooted (path : String) : Bool :=
  path.toList.head? == some '/'

/-- Whether a path is meant to lead to a directory. -/
def closed (path : String) : Bool :=
  path.toList.getLast? == some '/'

/-- The path that is followed from where another one leads. -/
def join (directory path : String) : String :=
  if rooted path then path
  else if closed directory then directory ++ path
  else directory ++ "/" ++ path

/-- The paths to the directories above, the nearest first, without the one where the path
begins. A single dot is no directory of its own. -/
def above (path : String) : List String :=
  let root := if rooted path then "/" else ""
  let names := (names path).filter (· != ".")
  (List.range (names.length - 1)).reverse.map fun n =>
    root ++ "/".intercalate (names.take (n + 1))

end CompositeCrd.Path
