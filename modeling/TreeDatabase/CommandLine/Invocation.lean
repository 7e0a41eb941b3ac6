import TreeDatabase.CommandLine.Options
import TreeDatabase.DataFormat

/-!
# Invocations

What a command line asks for: the options that hold for every command, and a command.
-/

namespace TreeDatabase.CommandLine

inductive ExportFormat where
  | flat
  | json
  | xml
  deriving DecidableEq, Repr

def ExportFormat.ofName? : String → Option ExportFormat
  | "flat" => some flat
  | "json" => some json
  | "xml" => some xml
  | _ => none

inductive ImportFormat where
  | flat
  | json
  deriving DecidableEq, Repr

def ImportFormat.ofName? : String → Option ImportFormat
  | "flat" => some flat
  | "json" => some json
  | _ => none

inductive SettingsCommand where
  | get (key : String)
  | set (key value : String)
  | list
  | path
  | init (force : Bool)
  deriving DecidableEq, Repr

inductive Command where
  | shell (debug : Bool)
  | run (script : String)
  | exec (statements : List String)
  | exportRecords (output : Option String) (format : ExportFormat)
  | importRecords (file : String) (merge : Bool) (format : Option ImportFormat)
  | settings (command : SettingsCommand)
  deriving DecidableEq, Repr

structure Invocation where
  dataDir : Option String := none
  database : Option String := none
  settingsFile : Option String := none
  format : Option DataFormat := none
  command : Command := .shell false
  deriving DecidableEq, Repr

namespace Invocation

def isPath (value : String) : Bool := value != ""

/-- The options that may stand before and after the name of a command. -/
def globalOptions : List OptionSpec :=
  [{ long := "data-dir", short := 'd', arity := .value, accepts := isPath,
     variableName := "ARBOR_DATA_DIR" },
   { long := "database", arity := .value, accepts := isPath, variableName := "ARBOR_DATABASE" },
   { long := "config", arity := .value, accepts := isPath, variableName := "ARBOR_CONFIG" },
   { long := "format", short := 'f', arity := .value,
     accepts := fun word => (DataFormat.ofName? word).isSome, variableName := "ARBOR_FORMAT" },
   { long := "verbose", short := 'v', arity := .counter },
   { long := "quiet", short := 'q' }]

def helpOption : OptionSpec := { long := "help", short := 'h', arity := .information }

/-- A level with its own options besides the global ones. -/
def level (options : List OptionSpec) (operand : Nat → String → Bool) : Level :=
  { options := options ++ helpOption :: globalOptions, operand }

def upTo (n : Nat) : Nat → String → Bool := fun place _ => place < n

def onePath : Nat → String → Bool := fun place path => place == 0 && isPath path

def topLevel : Level :=
  { level [{ long := "version", short := 'V', arity := .information }] (upTo 0) with
    subcommands := ["shell", "run", "exec", "export", "import", "config", "help"] }

def levelOf : String → Level
  | "shell" => level [{ long := "debug" }] (upTo 0)
  | "run" => level [] onePath
  | "exec" => level [] fun _ _ => true
  | "export" =>
    level
      [{ long := "output", short := 'o', arity := .value, accepts := isPath },
       { long := "as", arity := .value,
         accepts := fun word => (ExportFormat.ofName? word).isSome }] (upTo 0)
  | "import" =>
    level
      [{ long := "merge" },
       { long := "as", arity := .value,
         accepts := fun word => (ImportFormat.ofName? word).isSome }] onePath
  | "config" =>
    { level [] (upTo 0) with subcommands := ["get", "set", "list", "path", "init", "help"] }
  | "get" => level [] (upTo 1)
  | "set" => level [] (upTo 2)
  | "init" => level [{ long := "force" }] (upTo 0)
  | _ => level [] (upTo 0)

/-- Whether names lead from a level down to a subcommand. -/
def isSubcommand : Level → List String → Bool
  | _, [] => true
  | l, name :: names => l.subcommands.contains name && isSubcommand (levelOf name) names

/-- Scans one level. Help is for the subcommand that is named after it. -/
def scanLevel (l : Level) (args : List String) : Except Stop Found := do
  let found ← l.scan {} args
  match found.subcommand with
  | some ("help", names) => .error (if isSubcommand l names then .information else .usage)
  | _ => return found

/-- The settings command of a level below that for settings. -/
def settingsCommand (name : String) (f : Found) : Except Stop SettingsCommand :=
  match name, f.operands with
  | "get", [key] => .ok (.get key)
  | "set", [key, value] => .ok (.set key value)
  | "list", [] => .ok .list
  | "path", [] => .ok .path
  | "init", [] => .ok (.init (f.has "force"))
  | _, _ => .error .usage

/-- The command of a level, from its name, its options and its operands. -/
def commandOf (name : String) (f : Found) : Except Stop Command :=
  match name, f.operands with
  | "shell", [] => .ok (.shell (f.has "debug"))
  | "run", [script] => .ok (.run script)
  | "exec", statement :: statements => .ok (.exec (statement :: statements))
  | "export", [] =>
    .ok (.exportRecords (f.value? "output")
      (((f.value? "as").bind ExportFormat.ofName?).getD .flat))
  | "import", [file] =>
    .ok (.importRecords file (f.has "merge") ((f.value? "as").bind ImportFormat.ofName?))
  | _, _ => .error .usage

/-- The command of a level and the levels that were scanned for it. -/
def readCommand (top : Found) : Except Stop (Command × List Found) := do
  match top.subcommand with
  | none => return (.shell false, [top])
  | some ("config", args) =>
    let middle ← scanLevel (levelOf "config") args
    match middle.subcommand with
    | none => .error .usage
    | some (name, args) =>
      let found ← scanLevel (levelOf name) args
      return (.settings (← settingsCommand name found), [top, middle, found])
  | some (name, args) =>
    let found ← scanLevel (levelOf name) args
    return (← commandOf name found, [top, found])

/-- The value of a global option: the one on the deepest level, or else that of the
environment. -/
def global? (levels : List Found) (environment : List (String × String)) (long : String) :
    Option String :=
  (levels.reverse.findSome? (·.value? long)).or (environment.lookup long)

/-- Reads a command line. A variable that is not acceptable is an error on every level that does
not override it. -/
def ofArguments (environment : String → Option String) (args : List String) :
    Except Stop Invocation := do
  let top ← scanLevel topLevel args
  let (command, levels) ← readCommand top
  let given ← levels.mapM (addVariables globalOptions environment)
  let value? := global? levels given.flatten
  return {
    dataDir := value? "data-dir"
    database := value? "database"
    settingsFile := value? "config"
    format := (value? "format").bind DataFormat.ofName?
    command }

end Invocation

end TreeDatabase.CommandLine
