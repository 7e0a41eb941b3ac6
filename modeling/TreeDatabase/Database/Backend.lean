import TreeDatabase.Exchange.FlatFile
import TreeDatabase.File.Access
import TreeDatabase.File.Path

/-!
# Backends

Places in which a database keeps its records, in a monad that has such a place.
-/

namespace TreeDatabase

inductive StorageFault where
  /-- A file cannot be used, for a reason. -/
  | inaccessible (reason : String)
  | malformed (line : MalformedLine)
  | store (fault : StoreFault)
  /-- The service of the database has ended. -/
  | closed
  deriving DecidableEq, Repr

def StorageFault.message : StorageFault → String
  | inaccessible reason => "IO error: " ++ reason
  | malformed line => line.message
  | store fault => "Store error: " ++ fault.message
  | closed => "Database task is closed"

structure Backend (m : Type → Type) where
  /-- Makes the place ready for use. -/
  prepare : ExceptT StorageFault m Unit
  load : ExceptT StorageFault m (List Record)
  /-- Replaces all records. -/
  save : List Record → ExceptT StorageFault m Unit
  isHealthy : m Bool

namespace Backend

def memory : Backend (StateM (List Record)) where
  prepare := pure ()
  load := ExceptT.lift get
  save rs := ExceptT.lift (set rs)
  isHealthy := pure true

variable {m : Type → Type} [Monad m] [FileAccess m]

def onFile {α : Type} (action : m (Except String α)) : ExceptT StorageFault m α :=
  ExceptT.mk (do return (← action).mapError .inaccessible)

/-- Makes a file that is missing, and the directory for it. -/
def prepareFile (path : String) : ExceptT StorageFault m Unit := do
  if let some directory := (FilePath.parent? path).filter (· ≠ "") then
    onFile (FileAccess.makeDirectories directory)
  if !(← ExceptT.lift (FileAccess.fileExists path)) then
    onFile (FileAccess.writeText path "")

def loadFile (path : String) : ExceptT StorageFault m (List Record) := do
  match FlatFile.parse (← onFile (FileAccess.readText path)) with
  | .ok rs => return rs
  | .error line => throw (.malformed line)

/-- Replaces the text of a file as a whole: the new text goes into a file beside it first. -/
def saveFile (path : String) (rs : List Record) : ExceptT StorageFault m Unit := do
  let beside := path ++ ".tmp"
  onFile (FileAccess.writeText beside (FlatFile.render rs))
  onFile (FileAccess.rename beside path)

def file (path : String) : Backend m where
  prepare := prepareFile path
  load := loadFile path
  save := saveFile path
  isHealthy := FileAccess.fileExists path

end Backend

end TreeDatabase
