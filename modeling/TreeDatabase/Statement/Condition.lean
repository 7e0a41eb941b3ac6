import TreeDatabase.Statement
import TreeDatabase.Token

/-!
# Conditions

A condition lists items between commas. An item is a field, or a field and a value with an equals
sign between them.
-/

namespace TreeDatabase

open Token

namespace Condition

def isFieldToken (t : Token) : Bool := t.isSpace || t.isIdentifier

def isValueToken (t : Token) : Bool := t.isSpace || t.isIdentifier || t.isQuotedOrTime

/-- The field and the value of an item: none when it cannot be interpreted. -/
def readItem? (item : List Token) : Option (String × Option String) :=
  let parts := Text.cutAt (· == equals) item
  let field := trimSpaces parts.1
  if field ≠ [] ∧ field.all isFieldToken then
    match parts.2.map trimSpaces with
    | none => some (joinText field, none)
    | some value =>
      if value ≠ [] ∧ value.all isValueToken then some (joinText field, some (joinText value))
      else none
  else none

def addItem (s : Statement) (item : List Token) : Statement :=
  match readItem? item with
  | some (field, value) => { s with filter := s.filter.add field value }
  | none => s.addFault (.unreadableCondition (joinText item))

end Condition

/-- A statement with the filter and the faults of a condition. -/
def Statement.withCondition (s : Statement) (ts : List Token) : Statement :=
  if ts = [] then s.addFault .emptyCondition
  else ((Text.pieces (· == comma) ts).map trimSpaces).foldl Condition.addItem s

end TreeDatabase
