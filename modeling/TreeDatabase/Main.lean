import Std.Time.Zoned
import TreeDatabase.CommandLine.Commands

/-!
# The program

The command line on a real machine: its files, variables, clock and standard streams. The shell is
fed from the standard input, with prompts on a terminal.
-/

namespace TreeDatabase.CommandLine

namespace RealMachine

/-- Runs a file operation, with the reason when it fails. -/
def attempt {α : Type} (action : IO α) : IO (Except String α) := do
  match ← action.toBaseIO with
  | .ok a => return .ok a
  | .error e => return .error (toString e)

/-- The local time, or that of Greenwich where no time zone is known. -/
def localTime : IO Std.Time.PlainDateTime := do
  match ← (Std.Time.PlainDateTime.now).toBaseIO with
  | .ok t => return t
  | .error _ =>
    let moment ← Std.Time.Timestamp.now
    return .ofWallTime (.ofTimestamp moment .zero)

def present : IO Moment := do
  let t ← localTime
  return {
    date := ⟨t.date.year.toInt, t.date.month.toNat, t.date.day.toNat⟩
    time := ⟨t.time.hour.toNat, t.time.minute.toNat, t.time.second.toNat⟩ }

def exists? (path : String) : IO Bool := do
  return (← attempt (IO.FS.Handle.mk path .read)).toBool

def writePrivately (path text : String) : IO Unit := do
  if !(← exists? path) then
    IO.FS.writeFile path ""
    IO.setAccessRights path { user := { read := true, write := true } }
  IO.FS.writeFile path text

def seed : IO UInt64 := do
  return (← IO.getRandomBytes 8).foldl (fun n b => n * 256 + b.toUInt64) 0

end RealMachine

open RealMachine

instance : Host IO where
  readText path := attempt (IO.FS.readFile path)
  writeText path text := attempt (IO.FS.writeFile path text)
  writePrivateText path text := attempt (writePrivately path text)
  rename path target := attempt (IO.FS.rename path target)
  fileExists path := exists? path
  makeDirectories path := attempt (IO.FS.createDirAll path)
  environment name := IO.getEnv name
  printLine line := IO.println line
  now := present
  seed := seed

/-- Feeds the shell with the lines of the standard input. -/
partial def Shell.converse (shell : Shell) : Task IO Unit := do
  let input ← Task.host IO.getStdin
  if ← Task.host input.isTty then
    Task.host (do IO.print shell.prompt; (← IO.getStdout).flush)
  let line ← Task.file .file (attempt input.getLine)
  if line.isEmpty then shell.finish
  else
    let shell ← shell.feed ((Text.lines line).headD "")
    if shell.session.exited then return else shell.converse

def runInvocation (i : Invocation) : Task IO Unit := do
  match ← run i with
  | none => return
  | some shell => shell.converse

def usageText : String :=
  "Usage: arbor [OPTIONS] [shell|run|exec|export|import|config] [ARGS]"

def Ending.report : Ending → IO Unit
  | success => return
  | stopped .information => IO.println usageText
  | stopped .usage => IO.eprintln usageText
  | failed fault => do
    IO.eprintln ("Error: " ++ fault.message)
    if let some cause := fault.cause? then
      IO.eprintln ("\nCaused by:\n    " ++ cause)

end TreeDatabase.CommandLine

open TreeDatabase.CommandLine

def main (args : List String) : IO UInt32 := do
  let ending ← match ← readInvocation args with
    | .error stop => pure (Ending.stopped stop)
    | .ok i => Ending.ofResult <$> (runInvocation i).run
  ending.report
  return ending.exitCode.toUInt32
