import TreeDatabase.CommandLine.Host
import TreeDatabase.File.Tree

/-!
# A machine in memory

A value with files and variables, on which commands run as on a real machine.
-/

namespace TreeDatabase.CommandLine

structure Machine where
  tree : FileTree := {}
  environment : List (String × String) := []
  /-- The lines that were printed, the latest first. -/
  printed : List String := []
  moment : Moment
  seed : UInt64 := 0

namespace Machine

def output (m : Machine) : String := String.join (m.printed.reverse.map (· ++ "\n"))

def onFiles {α : Type} (action : StateM FileTree α) : StateM Machine α :=
  modifyGet fun m =>
    let (a, tree) := action.run m.tree
    (a, { m with tree })

instance : Host (StateM Machine) where
  readText path := onFiles (FileAccess.readText path)
  writeText path text := onFiles (FileAccess.writeText path text)
  writePrivateText path text := onFiles (FileAccess.writePrivateText path text)
  rename path target := onFiles (FileAccess.rename path target)
  fileExists path := onFiles (FileAccess.fileExists path)
  makeDirectories path := onFiles (FileAccess.makeDirectories path)
  environment name := return (← get).environment.lookup name
  printLine line := modify fun m => { m with printed := line :: m.printed }
  now := return (← get).moment
  seed := return (← get).seed

end Machine

end TreeDatabase.CommandLine
