import TreeDatabase.CommandLine.Session

/-!
# Statements from arguments, scripts and the shell

Statements are executed one after the other until one of them ends the session. The shell gathers
lines until they hold a complete statement.
-/

namespace TreeDatabase.CommandLine

variable {m : Type → Type} [Monad m] [Host m]

def printText (text : String) : Task m Unit :=
  if text = "" then pure () else Task.host (Host.printLine text)

namespace Session

/-- Executes statements and prints their replies, with the statements themselves if `debug` is
set. -/
def executeAll (debug : Bool) (s : Session) : List ScriptStatement → Task m Session
  | [] => pure s
  | statement :: rest => do
    let (s, reply) ← s.execute statement.text
    if debug then Task.host (Host.printLine reply.statement.toJson.render)
    printText (reply.render s.format)
    if s.exited then return s else s.executeAll debug rest

/-- Executes the statements of a script and prints their errors only. -/
def executeScript (s : Session) : List ScriptStatement → Task m Session
  | [] => pure s
  | statement :: rest => do
    let (s, reply) ← s.execute statement.text
    if reply.isError then
      Task.host (Host.printLine
        ("Error on line " ++ Number.numeral statement.line ++ ": " ++ reply.text))
    if s.exited then return s else s.executeScript rest

end Session

def runExec (s : Session) (statements : List String) : Task m Unit := do
  let _ ← s.executeAll false (Script.split (Text.joinWith " " statements))

/-- Runs a script and saves the database once, at the end. -/
def runScript (s : Session) (path : String) : Task m Unit := do
  let text ← Task.file (.unreadable ("script " ++ path)) (FileAccess.readText path)
  let manual := { s with database := { s.database with autosave := false } }
  let s ← manual.executeScript (Script.split text)
  s.flush

/-- A shell: a session and the lines that do not make a complete statement yet. -/
structure Shell where
  session : Session
  debug : Bool
  buffer : String := ""

namespace Shell

/-- Takes one more line and executes the statements that it completes. -/
def feed (shell : Shell) (line : String) : Task m Shell := do
  let (complete, rest) := Script.takeComplete (shell.buffer ++ line ++ "\n")
  match complete with
  | none => return { shell with buffer := rest }
  | some text =>
    let session ← shell.session.executeAll shell.debug (Script.split text)
    return { shell with session, buffer := rest }

def finish (shell : Shell) : Task m Unit := do
  if Text.isBlankText shell.buffer then return
  let _ ← shell.session.executeAll shell.debug (Script.split shell.buffer)

def feedAll (shell : Shell) : List String → Task m Unit
  | [] => shell.finish
  | line :: lines => do
    let shell ← shell.feed line
    if shell.session.exited then return else shell.feedAll lines

def prompt (shell : Shell) : String :=
  if Text.isBlankText shell.buffer then shell.session.settings.promptText else "... "

end Shell

end TreeDatabase.CommandLine
