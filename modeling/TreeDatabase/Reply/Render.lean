import TreeDatabase.Exchange.Xml
import TreeDatabase.Json
import TreeDatabase.Reply

/-!
# Rendering of replies

A reply is shown as text, with the lines of each response between separators, as JSON or as XML.
Lines of readings can be shown as an indented tree.
-/

namespace TreeDatabase

namespace TreeLines

def blanksPerLevel : Nat := 4

/-- Deeper lines are not indented further. -/
def maxLevel : Nat := 8

def parts (line : String) : List Char × List Char :=
  let parts := Text.cutAt (· == ':') line.toList
  (parts.1, parts.2.getD [])

/-- The number of names above the last one of the path. -/
def depth (line : String) : Nat := (parts line).1.count '.'

/-- The line of a node that is so many levels below the highest. -/
def renderLine (level : Nat) (line : String) : String :=
  String.ofList (List.replicate (blanksPerLevel * min level maxLevel) ' ' ++
    Text.afterLast (· == '.') (parts line).1 ++ "-> ".toList ++ (parts line).2)

/-- Lines of paths and values as lines of names and values, indented by depth below the highest
line. -/
def render (lines : List String) : List String :=
  let base := ((lines.map depth).min?).getD 0
  lines.map fun line => renderLine (depth line - base) line

end TreeLines

namespace Tally

def maxSeparator : Nat := 64

/-- Lines between separators as wide as the widest line. -/
def framed (lines : List String) : List String :=
  let width := ((lines.map String.length).max?).getD 0
  let separator := String.ofList (List.replicate (max 1 (min maxSeparator width)) '=')
  separator :: lines ++ [separator]

/-- A response as text: its lines in a frame, if there are any, and its summary. -/
def renderText (format : DataFormat) (t : Tally) : String :=
  let summary := t.response.summary ++ t.mark
  let lines := if format = .tree ∧ t.response.verb = .read then TreeLines.render t.response.lines
    else t.response.lines
  if lines.isEmpty then summary else Text.joinWith "\n" (framed lines ++ [summary])

def toJson (t : Tally) : Json :=
  .object ([("verb", .string t.response.verb.name), ("lines", Json.strings t.response.lines),
    ("count", .number t.response.count), ("summary", .string t.response.summary)] ++
    if t.times = 1 then [] else [("times", .number t.times)])

end Tally

namespace Reply

/-- A single response stands alone, others in an array. -/
def toJson (r : Reply) : Json :=
  match r.tallies with
  | [t] => t.toJson
  | ts => .array (ts.map Tally.toJson)

def render (format : DataFormat) (r : Reply) : String :=
  match format with
  | .json => r.toJson.render
  | .xml => Text.joinWith "\n" (r.tallies.map Xml.renderTally)
  | .basic | .tree =>
    Text.joinWith "\n" ((r.tallies.map (Tally.renderText format)).filter (· ≠ ""))

end Reply

end TreeDatabase
