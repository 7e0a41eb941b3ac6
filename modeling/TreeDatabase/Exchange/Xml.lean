import TreeDatabase.Number.Natural
import TreeDatabase.Reply
import TreeDatabase.Store.Records

/-!
# XML documents

Records and responses as XML. The five characters with an entity are escaped everywhere.
-/

namespace TreeDatabase.Xml

/-- How a character is written in content and in attributes. -/
def escapedChar : Char → List Char
  | '&' => "&amp;".toList
  | '<' => "&lt;".toList
  | '>' => "&gt;".toList
  | '"' => "&quot;".toList
  | '\'' => "&apos;".toList
  | c => [c]

def escape (s : String) : String := String.ofList (s.toList.flatMap escapedChar)

def renderRecord (r : Record) : String :=
  "  <record path=\"" ++ escape r.path ++ "\">" ++ escape r.value ++ "</record>\n"

def renderRecords (rs : List Record) : String :=
  "<records>\n" ++ String.join (rs.map renderRecord) ++ "</records>"

def renderTally (t : Tally) : String :=
  let times := if 1 < t.times then " times=\"" ++ Number.numeral t.times ++ "\"" else ""
  "<response verb=\"" ++ t.response.verb.name ++ "\" count=\"" ++
    Number.numeral t.response.count ++ "\"" ++ times ++ ">\n" ++
    String.join (t.response.lines.map fun line => "  <line>" ++ escape line ++ "</line>\n") ++
    "  <summary>" ++ escape t.response.summary ++ "</summary>\n</response>"

end TreeDatabase.Xml
