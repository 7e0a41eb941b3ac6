import TreeDatabase.CommandLine.Invocation
import TreeDatabase.File.Path
import TreeDatabase.Settings

/-!
# Where files are

Paths of the settings file and of the database, from the command line, the settings and the
directories of the user.
-/

namespace TreeDatabase.CommandLine

structure Directories where
  home : Option String := none
  configHome : Option String := none
  dataHome : Option String := none
  deriving DecidableEq, Repr

namespace Location

open FilePath (join)

/-- A directory that a variable names with an absolute path, or else one below the home. -/
def userDirectory (named : Option String) (home : Option String) (below : String) : String :=
  match named.filter FilePath.isAbsolute, home with
  | some path, _ => path
  | none, some home => join home below
  | none, none => "."

def defaultSettingsFile (d : Directories) : String :=
  join (join (userDirectory d.configHome d.home ".config") "arbor") "config.toml"

def defaultDataDir (d : Directories) : String :=
  join (userDirectory d.dataHome d.home ".local/share") "arbor"

def settingsFile (d : Directories) (i : Invocation) : String :=
  i.settingsFile.getD (defaultSettingsFile d)

/-- The file of the database: the one that is named, or else one in the data directory. -/
def databaseFile (d : Directories) (i : Invocation) (s : Settings) : String :=
  match i.database with
  | some path => path
  | none =>
    let directory := (i.dataDir.or s.dataDir).getD (defaultDataDir d)
    join directory (s.databaseFile.getD Settings.defaultDatabaseFile)

/-- The format of replies: the one that is asked for, or else that of the settings if it is one. -/
def format (i : Invocation) (s : Settings) : DataFormat :=
  (i.format.or (s.format.bind DataFormat.ofName?)).getD .basic

end Location

end TreeDatabase.CommandLine
