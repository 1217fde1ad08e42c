import Typewright.Text.Lines

/-!
# File paths

Paths with slashes between names. Empty names and `.` are skipped when a path is taken apart; `..`
is kept, since a name in front of it may be a link.
-/

namespace Typewright.FilePath

/-- The names of a path, without empty ones and `.`. -/
def names (path : String) : List String :=
  ((Text.pieces (· == '/') path.toList).map String.ofList).filter fun s => s != "" && s != "."

def isAbsolute (path : String) : Bool := path.toList.head? == some '/'

/-- A path taken relative to a directory. -/
def join (directory path : String) : String :=
  if isAbsolute path then path
  else if directory.toList.getLast? == some '/' then directory ++ path
  else directory ++ "/" ++ path

/-- The names that lead from the root to `path`, seen from the directory `working`; nothing for the
empty path. -/
def absolute? (working path : String) : Option (List String) :=
  if path == "" then none
  else if isAbsolute path then some (names path)
  else some (names working ++ names path)

/-- A file name up to its last dot; a dot in front does not count. -/
def stemOfName (name : String) : String :=
  let cs := name.toList
  if cs.contains '.' then
    let stem := ((cs.reverse.dropWhile (· != '.')).drop 1).reverse
    if stem.isEmpty then name else String.ofList stem
  else name

/-- The stem of the last name of a path, if it has one that names a file. -/
def stem? (path : String) : Option String :=
  match (names path).getLast? with
  | none => none
  | some name => if name == ".." then none else some (stemOfName name)

/-- The directory that holds a path; nothing where the path is a mere name. -/
def directory? (path : String) : Option String :=
  let parents := (names path).dropLast
  if (names path).isEmpty then none
  else if isAbsolute path then some ("/" ++ String.intercalate "/" parents)
  else if !parents.isEmpty then some (String.intercalate "/" parents)
  else if "./".toList.isPrefixOf path.toList then some "."
  else none

end Typewright.FilePath
