import TreeDatabase.CommandLine.Session
import TreeDatabase.Exchange.RecordJson
import TreeDatabase.Exchange.Xml

/-!
# Exporting and importing

Records leave a database as flat text, JSON or XML, and enter it as flat text or JSON.
-/

namespace TreeDatabase.CommandLine

def ExportFormat.render (f : ExportFormat) (rs : List Record) : String :=
  match f with
  | flat => FlatFile.render rs
  | json => RecordJson.render rs
  | xml => Xml.renderRecords rs

def ImportFormat.parse (f : ImportFormat) (text : String) : Except Failure (List Record) :=
  match f with
  | flat => (FlatFile.parse text).mapError fun line => .storage (.malformed line)
  | json =>
    match RecordJson.parse? text with
    | some rs => .ok rs
    | none => .error .notJson

/-- Files with the extension of JSON hold JSON, and others flat text. -/
def ImportFormat.ofPath (path : String) : ImportFormat :=
  if (FilePath.extension? path).any (Text.equalsIgnoringCase · "json") then json else flat

/-- What an export prints when it writes no file: the text without the blanks at its end. -/
def printedExport (f : ExportFormat) (rs : List Record) : String := Text.trimEnd (f.render rs)

variable {m : Type → Type} [Monad m] [Host m]

def runExport (s : Session) (output : Option String) (f : ExportFormat) : Task m Unit := do
  match output with
  | some path =>
    Task.file .file (FileAccess.writePrivateText path (f.render s.database.records))
    Task.host (Host.printLine ("Exported to " ++ Text.quoted path))
  | none => Task.host (Host.printLine (printedExport f s.database.records))

def runImport (s : Session) (path : String) (merge : Bool) (f : Option ImportFormat) :
    Task m Unit := do
  let text ← Task.file (.unreadable path) (FileAccess.readText path)
  let rs ← ((f.getD (ImportFormat.ofPath path)).parse text : Except Failure (List Record))
  let (_, count) ← Task.host (s.database.addRecords s.backend rs merge)
  let n ← Task.storage (ExceptT.mk (pure count))
  Task.host (Host.printLine ("Imported " ++ Number.numeral n ++ " records"))

end TreeDatabase.CommandLine
