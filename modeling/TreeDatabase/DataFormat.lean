import TreeDatabase.Text.Ascii

/-!
# Formats of replies
-/

namespace TreeDatabase

inductive DataFormat where
  /-- Lines between separators. -/
  | basic
  /-- Indented lines. -/
  | tree
  | xml
  | json
  deriving DecidableEq, Repr

namespace DataFormat

def name : DataFormat → String
  | basic => "basic"
  | tree => "tree"
  | xml => "xml"
  | json => "json"

/-- The format that a word names in any letter case. The plain format is the basic one. -/
def ofName? (word : String) : Option DataFormat :=
  match Text.lower word with
  | "basic" | "plain" => some basic
  | "tree" => some tree
  | "xml" => some xml
  | "json" => some json
  | _ => none

def unknownMessage (word : String) : String := "Unknown data format: " ++ Text.lower word

theorem ofName?_name (f : DataFormat) : ofName? f.name = some f := by
  cases f <;> decide

end DataFormat

end TreeDatabase
