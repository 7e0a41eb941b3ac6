import TreeDatabase.CommandLine.Host
import TreeDatabase.CommandLine.Location
import TreeDatabase.Exchange.RecordJson
import TreeDatabase.Reply.Render
import TreeDatabase.Script
import TreeDatabase.Statement.Json

/-!
# Sessions

A session is an open database in a file.
-/

namespace TreeDatabase.CommandLine

structure Session where
  path : String
  database : Database StandardState
  format : DataFormat
  settings : Settings

variable {m : Type → Type} [Monad m] [Host m]

/-- The directories that the variables of the host name. -/
def directories : Task m Directories := do
  return {
    home := ← Task.host (Host.environment "HOME")
    configHome := ← Task.host (Host.environment "XDG_CONFIG_HOME")
    dataHome := ← Task.host (Host.environment "XDG_DATA_HOME") }

/-- The settings in a file; without a readable file there are none. -/
def loadSettings (path : String) : Task m Settings := do
  return Settings.ofFile (← Task.host (FileAccess.readText path)).toOption

namespace Session

def backend (s : Session) : Backend m := Backend.file s.path

def start (i : Invocation) : Task m Session := do
  let places ← directories
  let settings ← loadSettings (Location.settingsFile places i)
  let path := Location.databaseFile places i settings
  let format := Location.format i settings
  let draws := Draws.ofSeed (← Task.host Host.seed)
  let now ← Task.host Host.now
  let engine : Engine StandardState := { resolverState := { draws, now }, format }
  let database ← Task.storage (Database.openWith (Backend.file path) engine)
  return { path, database, format, settings }

def setNow (s : Session) (now : Moment) : Session :=
  { s with database.engine.resolverState.now := now }

def execute (s : Session) (text : String) : Task m (Session × Reply) := do
  let s := s.setNow (← Task.host Host.now)
  let (database, reply) ← Task.host (s.database.execute s.backend Resolver.standard text)
  return ({ s with database }, ← Task.storage (ExceptT.mk (pure reply)))

def flush (s : Session) : Task m Unit := Task.storage (s.database.flush s.backend)

def exited (s : Session) : Bool := s.database.engine.exited

end Session

end TreeDatabase.CommandLine
