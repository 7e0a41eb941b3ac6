import TreeDatabase.Text.Ascii

/-!
# Generator keywords

Words of a statement that stand for a generated text.
-/

namespace TreeDatabase

inductive Generator where
  | newId
  | firstNameMale
  | firstNameFemale
  | lastName
  | time
  | date
  | integer
  | decimal
  | text
  | boolean
  deriving DecidableEq, Repr

namespace Generator

def all : List Generator :=
  [newId, firstNameMale, firstNameFemale, lastName, time, date, integer, decimal, text, boolean]

def name : Generator → String
  | newId => "Newid"
  | firstNameMale => "FirstNameMale"
  | firstNameFemale => "FirstNameFemale"
  | lastName => "LastName"
  | time => "Time"
  | date => "Date"
  | integer => "Integer"
  | decimal => "Decimal"
  | text => "Text"
  | boolean => "Boolean"

def ofName? (word : String) : Option Generator := all.find? (·.name == word)

/-- The keyword that a word spells in any letter case. -/
def ofWord? (word : String) : Option Generator :=
  all.find? fun g => Text.equalsIgnoringCase g.name word

theorem ofName?_name (g : Generator) : ofName? g.name = some g := by
  cases g <;> decide

end Generator

end TreeDatabase
