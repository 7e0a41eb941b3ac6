import TreeDatabase.DataFormat
import TreeDatabase.File.Path
import TreeDatabase.Text.Split
import TreeDatabase.Toml.Document

/-!
# Settings

Four optional settings, kept in a TOML file. A file that cannot be read as settings counts as one
without settings.
-/

namespace TreeDatabase

inductive SettingKey where
  | dataDir
  | databaseFile
  | format
  | prompt
  deriving DecidableEq, Repr

namespace SettingKey

/-- All keys in the order in which they are listed and written. -/
def all : List SettingKey := [dataDir, databaseFile, format, prompt]

def name : SettingKey → String
  | dataDir => "data_dir"
  | databaseFile => "database_file"
  | format => "format"
  | prompt => "prompt"

def ofName? (word : String) : Option SettingKey := all.find? (·.name == word)

end SettingKey

inductive SettingFault where
  | unknownKey (key : String)
  | unknownFormat (word : String)
  deriving DecidableEq, Repr

def SettingFault.message : SettingFault → String
  | unknownKey key =>
    "Unknown config key: " ++ key ++ ". Available keys: " ++
      Text.joinWith ", " (SettingKey.all.map SettingKey.name)
  | unknownFormat word => DataFormat.unknownMessage word

structure Settings where
  dataDir : Option String := none
  databaseFile : Option String := none
  format : Option String := none
  prompt : Option String := none
  deriving DecidableEq, Repr

namespace Settings

def get? (s : Settings) : SettingKey → Option String
  | .dataDir => s.dataDir
  | .databaseFile => s.databaseFile
  | .format => s.format
  | .prompt => s.prompt

def put (s : Settings) (key : SettingKey) (value : String) : Settings :=
  match key with
  | .dataDir => { s with dataDir := value }
  | .databaseFile => { s with databaseFile := value }
  | .format => { s with format := value }
  | .prompt => { s with prompt := value }

def find? (s : Settings) (name : String) : Option String :=
  (SettingKey.ofName? name).bind s.get?

/-- Sets a setting by its name. The format has to be one. -/
def set (s : Settings) (name value : String) : Except SettingFault Settings :=
  match SettingKey.ofName? name with
  | none => .error (.unknownKey name)
  | some .format =>
    if (DataFormat.ofName? value).isSome then .ok (s.put .format value)
    else .error (.unknownFormat value)
  | some key => .ok (s.put key value)

/-- Whether two settings are the same, where the data directory counts as a path. -/
def same (s t : Settings) : Bool :=
  (match s.dataDir, t.dataDir with
    | none, none => true
    | some a, some b => FilePath.same a b
    | _, _ => false) &&
    s.databaseFile == t.databaseFile && s.format == t.format && s.prompt == t.prompt

def defaultPrompt : String := "arbor> "

def defaultDatabaseFile : String := "master.arbor"

def promptText (s : Settings) : String := s.prompt.getD defaultPrompt

/-- The settings of a new file, for a default data directory. -/
def initial (dataDir : String) : Settings :=
  ⟨some dataDir, some defaultDatabaseFile, some DataFormat.basic.name, some defaultPrompt⟩

def renderLine? (s : Settings) (key : SettingKey) : Option String :=
  (s.get? key).map fun value => key.name ++ " = " ++ Toml.writeString value ++ "\n"

def render (s : Settings) : String := String.join (SettingKey.all.filterMap s.renderLine?)

/-- The text of a key in a document: none when the key has a value of another kind. -/
def textOf? (d : Toml.Document) (key : SettingKey) : Option (Option String) :=
  match d.lookup [.key key.name] with
  | none => some none
  | some (.value (some text)) => some (some text)
  | some _ => none

/-- The settings of a text. Other keys do not matter. -/
def parse? (text : String) : Option Settings := do
  let d ← Toml.parse? text
  return ⟨← textOf? d .dataDir, ← textOf? d .databaseFile, ← textOf? d .format,
    ← textOf? d .prompt⟩

/-- The settings of a file, given by its text if it exists. -/
def ofFile (text : Option String) : Settings := (text.bind parse?).getD {}

end Settings

end TreeDatabase
