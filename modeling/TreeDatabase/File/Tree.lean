import TreeDatabase.File.Access
import TreeDatabase.File.Path

/-!
# Files in memory

A value with files and directories, on which file operations work as on a disk. A place is the list
of the names that lead there from the root.
-/

namespace TreeDatabase

inductive FileFault where
  | missing
  | notDirectory
  | isDirectory
  | occupied
  | nameTooLong
  | nullCharacter
  deriving DecidableEq, Repr

def FileFault.message : FileFault → String
  | missing => "No such file or directory (os error 2)"
  | notDirectory => "Not a directory (os error 20)"
  | isDirectory => "Is a directory (os error 21)"
  | occupied => "File exists (os error 17)"
  | nameTooLong => "File name too long (os error 36)"
  | nullCharacter => "file name contained an unexpected NUL byte"

structure FileTree where
  files : List (List String × String) := []
  /-- The directories besides the root. -/
  directories : List (List String) := []
  /-- Where relative paths begin. -/
  workingDirectory : List String := []

namespace FileTree

def isDirectory (t : FileTree) (place : List String) : Bool :=
  place = [] || t.directories.contains place

def needDirectory (t : FileTree) (place : List String) : Except FileFault Unit :=
  if t.isDirectory place then .ok ()
  else if (t.files.lookup place).isSome then .error .notDirectory
  else .error .missing

/-- The largest lengths of names and of paths, in bytes. -/
def maxNameLength : Nat := 255
def maxPathLength : Nat := 4095

def step (place : List String) (name : String) : Except FileFault (List String) :=
  if name.utf8ByteSize > maxNameLength then .error .nameTooLong
  else if name = "" ∨ name = "." then .ok place
  else if name = ".." then .ok place.dropLast
  else .ok (place ++ [name])

/-- The texts between the slashes of a path, which has to be one. -/
def pieces? (path : String) : Except FileFault (List String) :=
  if path.toList.contains '\x00' then .error .nullCharacter
  else if path = "" then .error .missing
  else if path.utf8ByteSize > maxPathLength then .error .nameTooLong
  else .ok (FilePath.pieces path)

def origin (t : FileTree) (path : String) : List String :=
  if FilePath.isAbsolute path then [] else t.workingDirectory

/-- The place that a path leads to. All places on the way have to be directories. -/
def follow (t : FileTree) (path : String) : Except FileFault (List String) := do
  (← pieces? path).foldlM (fun place name => do
    t.needDirectory place
    step place name) (t.origin path)

def read (t : FileTree) (path : String) : Except FileFault String := do
  let place ← t.follow path
  match t.files.lookup place with
  | some text => return text
  | none => if t.isDirectory place then .error .isDirectory else .error .missing

/-- Puts a text at a place, where there may be a file already. -/
def put (t : FileTree) (place : List String) (text : String) : FileTree :=
  { t with files := (place, text) :: t.files.filter (·.1 ≠ place) }

def write (t : FileTree) (path text : String) : Except FileFault FileTree := do
  let place ← t.follow path
  t.needDirectory place.dropLast
  if t.isDirectory place then .error .isDirectory else return t.put place text

/-- Moves a file to a place where there may be a file already. -/
def rename (t : FileTree) (path target : String) : Except FileFault FileTree := do
  let text ← t.read path
  let place ← t.follow path
  { t with files := t.files.filter (·.1 ≠ place) }.write target text

def has (t : FileTree) (path : String) : Bool :=
  match t.follow path with
  | .ok place => t.isDirectory place || (t.files.lookup place).isSome
  | .error _ => false

/-- Takes one step to a directory that is made if nothing is there. A file there is a fault. -/
def enter (fault : FileFault) (position : FileTree × List String) (name : String) :
    Except FileFault (FileTree × List String) := do
  let place ← step position.2 name
  if position.1.isDirectory place then return (position.1, place)
  else if (position.1.files.lookup place).isSome then .error fault
  else return ({ position.1 with directories := place :: position.1.directories }, place)

/-- Makes the places on the way of a path directories, and the last place too. -/
def makeDirectories (t : FileTree) (path : String) : Except FileFault FileTree := do
  let names ← pieces? path
  let above ← names.dropLast.foldlM (enter .notDirectory) (t, t.origin path)
  return (← enter .occupied above (names.getLast?.getD "")).1

/-- The files below a directory, with their paths from there. -/
def filesBelow (t : FileTree) (directory : List String) : List (String × String) :=
  t.files.filterMap fun (place, text) =>
    if directory.isPrefixOf place then
      some (Text.joinWith "/" (place.drop directory.length), text)
    else none

def change (f : FileTree → Except FileFault FileTree) : StateM FileTree (Except String Unit) :=
  modifyGet fun t =>
    match f t with
    | .ok t => (.ok (), t)
    | .error fault => (.error fault.message, t)

instance : FileAccess (StateM FileTree) where
  readText path := return ((← get).read path).mapError FileFault.message
  writeText path text := change (·.write path text)
  writePrivateText path text := change (·.write path text)
  rename path target := change (·.rename path target)
  fileExists path := return (← get).has path
  makeDirectories path := change (·.makeDirectories path)

end FileTree

end TreeDatabase
