import TreeDatabase.Database
import TreeDatabase.Generator.Standard
import TreeDatabase.Settings

/-!
# Hosts

What commands need from the machine they run on. Commands are written for every monad with a host,
so that they run on real files as well as on files in memory.
-/

namespace TreeDatabase.CommandLine

/-- Access to files, variables, output, the present and a source of chance. -/
class Host (m : Type → Type) extends FileAccess m where
  environment : String → m (Option String)
  printLine : String → m Unit
  now : m Moment
  seed : m UInt64

inductive Failure where
  | setting (fault : SettingFault)
  | storage (fault : StorageFault)
  /-- A file cannot be used, for a reason. -/
  | file (reason : String)
  /-- A file that a command was given cannot be read. -/
  | unreadable (what : String) (reason : String)
  /-- A text is no list of records in JSON. -/
  | notJson
  | settingsExist (path : String)
  deriving DecidableEq, Repr

def Failure.message : Failure → String
  | setting fault => fault.message
  | storage fault => fault.message
  | file reason => reason
  | unreadable what _ => "Cannot read " ++ what
  | notJson => "Invalid JSON"
  | settingsExist path =>
    "Config file already exists at " ++ path ++ ". Use --force to overwrite."

/-- What lies behind a failure, when its message does not say. -/
def Failure.cause? : Failure → Option String
  | unreadable _ reason => some reason
  | _ => none

abbrev Task (m : Type → Type) := ExceptT Failure m

namespace Task

variable {m : Type → Type} [Monad m]

def host {α : Type} (action : m α) : Task m α := ExceptT.lift action

def storage {α : Type} (action : ExceptT StorageFault m α) : Task m α :=
  ExceptT.mk (do return (← action.run).mapError .storage)

/-- Runs a file operation, with a failure for its reason. -/
def file {α : Type} (fault : String → Failure) (action : m (Except String α)) : Task m α :=
  ExceptT.mk (do return (← action).mapError fault)

end Task

end TreeDatabase.CommandLine
