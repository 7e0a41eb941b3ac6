import TreeDatabase.Text.Split

/-!
# Paths of files

A path is a text with slashes between the names of directories and of a file. Slashes in a row
count as one, and a point alone stands for the directory before it, so that it counts only at the
start of a relative path.
-/

namespace TreeDatabase.FilePath

def isAbsolute (path : String) : Bool := path.toList.head? == some '/'

def pieces (path : String) : List String := Text.splitOn '/' path

/-- The names of a path that count. -/
def names (path : String) : List String :=
  let named := (pieces path).filter fun name => name != "" && name != "."
  if (pieces path).head? = some "." then "." :: named else named

def same (a b : String) : Bool := isAbsolute a == isAbsolute b && names a == names b

/-- A path below a directory; an absolute path stands for itself. -/
def join (directory path : String) : String :=
  if isAbsolute path ∨ directory = "" then path
  else if directory.toList.getLast? = some '/' then directory ++ path
  else directory ++ "/" ++ path

/-- The directory that holds a path: blank for a path of one name, none for a path without
names. -/
def parent? (path : String) : Option String :=
  match (names path).reverse with
  | [] => none
  | _ :: above =>
    some ((if isAbsolute path then "/" else "") ++ Text.joinWith "/" above.reverse)

/-- What follows the last point of the last name, unless the name begins with that point. -/
def extension? (path : String) : Option String :=
  (names path).getLast?.bind fun name =>
    let parts := Text.pieces (· == '.') name.toList
    if name = ".." ∨ parts.length ≤ 1 ∨ parts.dropLast = [[]] then none
    else parts.getLast?.map String.ofList

end TreeDatabase.FilePath
