import TreeDatabase.Store.Records
import TreeDatabase.Text.Blank

/-!
# Flat files

Records as lines of text, with a colon between path and value. Values are written as they are, so
that a value may contain colons but no line breaks.
-/

namespace TreeDatabase

/-- A line that is no record, by its number counted from one. -/
structure MalformedLine where
  line : Nat
  content : String
  deriving DecidableEq, Repr

def MalformedLine.message (m : MalformedLine) : String :=
  "Malformed record on line " ++ Number.numeral m.line ++ ": " ++ Text.quoted m.content

namespace FlatFile

def render (rs : List Record) : String := String.join (rs.map fun r => r.render ++ "\n")

/-- The record of a line: what stands before the first colon and what stands after it. A path
without a colon has a blank value. -/
def readLine? (line : List Char) : Option Record :=
  let parts := Text.cutAt (· == ':') line
  if (Text.pieces (· == '.') parts.1).contains [] then none
  else some ⟨String.ofList parts.1, String.ofList (parts.2.getD [])⟩

/-- Reads lines of which the first has a number. Blank lines do not count. -/
def readLines : (number : Nat) → List (List Char) → Except MalformedLine (List Record)
  | _, [] => .ok []
  | number, line :: lines =>
    if line.all Text.isBlank then readLines (number + 1) lines
    else
      match readLine? line with
      | none => .error ⟨number, String.ofList line⟩
      | some r => (readLines (number + 1) lines).map (r :: ·)

def parse (text : String) : Except MalformedLine (List Record) :=
  readLines 1 (Text.lineChars text.toList)

end FlatFile

end TreeDatabase
