import TreeDatabase.CommandLine.Exchange
import TreeDatabase.CommandLine.Shell

/-!
# Commands

The commands of the command line. The shell is only opened here: whoever runs the command feeds it
with lines.
-/

namespace TreeDatabase.CommandLine

variable {m : Type → Type} [Monad m] [Host m]

def saveSettings (path : String) (s : Settings) : Task m Unit := do
  if let some directory := (FilePath.parent? path).filter (· ≠ "") then
    Task.file .file (FileAccess.makeDirectories directory)
  Task.file .file (FileAccess.writeText path s.render)

def shown (value : Option String) : String := value.getD "(not set)"

def runSettings (i : Invocation) (command : SettingsCommand) : Task m Unit := do
  let places ← directories
  let path := Location.settingsFile places i
  let print (line : String) : Task m Unit := Task.host (Host.printLine line)
  match command with
  | .path => print path
  | .get name =>
    match SettingKey.ofName? name with
    | none => throw (.setting (.unknownKey name))
    | some key => print (shown ((← loadSettings path).get? key))
  | .set name value =>
    match (← loadSettings path).set name value with
    | .error fault => throw (.setting fault)
    | .ok settings =>
      saveSettings path settings
      print ("Set " ++ name ++ " = " ++ value)
  | .list =>
    let settings ← loadSettings path
    print ("Config file: " ++ path)
    print ""
    SettingKey.all.forM fun key => print (key.name ++ " = " ++ shown (settings.get? key))
  | .init force =>
    if !force && (← Task.host (FileAccess.fileExists path)) then throw (.settingsExist path)
    saveSettings path (Settings.initial (Location.defaultDataDir places))
    print ("Created config file at " ++ path)

/-- Runs a command. For the shell the answer is the shell, which waits for lines. -/
def run (i : Invocation) : Task m (Option Shell) := do
  match i.command with
  | .settings command =>
    runSettings i command
    return none
  | .shell debug => return some { session := ← Session.start i, debug }
  | .run script =>
    runScript (← Session.start i) script
    return none
  | .exec statements =>
    runExec (← Session.start i) statements
    return none
  | .exportRecords output format =>
    runExport (← Session.start i) output format
    return none
  | .importRecords file merge format =>
    runImport (← Session.start i) file merge format
    return none

/-- Runs a command on lines that are all there, as from a file. -/
def runOn (lines : List String) (i : Invocation) : Task m Unit := do
  match ← run i with
  | none => return
  | some shell => shell.feedAll lines

/-- Reads a command line with the variables of the host. -/
def readInvocation (args : List String) : m (Except Stop Invocation) := do
  let names := Invocation.globalOptions.filterMap (·.variableName)
  let values ← names.mapM fun name => return (name, ← Host.environment name)
  return Invocation.ofArguments (fun name => (values.lookup name).bind id) args

inductive Ending where
  | success
  | stopped (stop : Stop)
  | failed (fault : Failure)
  deriving DecidableEq, Repr

namespace Ending

def exitCode : Ending → Nat
  | success => 0
  | stopped .information => 0
  | stopped .usage => 2
  | failed _ => 1

def ofResult : Except Failure Unit → Ending
  | .ok () => success
  | .error fault => failed fault

end Ending

def perform (args lines : List String) : m Ending := do
  match ← readInvocation args with
  | .error stop => return .stopped stop
  | .ok i => return .ofResult (← (runOn lines i).run)

end TreeDatabase.CommandLine
