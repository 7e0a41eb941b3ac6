/-!
# Kinds of rules

The six constraints that a ruleset can put on the values of the nodes of one name.
-/

namespace TreeDatabase

inductive RuleKind where
  | type
  | max
  | min
  | required
  | key
  | unique
  deriving DecidableEq, Repr

namespace RuleKind

/-- All kinds, in the order in which a ruleset lists them. -/
def all : List RuleKind := [type, max, min, required, key, unique]

def name : RuleKind → String
  | type => "type"
  | max => "max"
  | min => "min"
  | required => "required"
  | key => "key"
  | unique => "unique"

def ofName? (word : String) : Option RuleKind := all.find? (·.name == word)

def isFlag : RuleKind → Bool
  | required | key | unique => true
  | _ => false

def default : RuleKind → String
  | type => "text"
  | max | min => ""
  | required | key | unique => "false"

theorem mem_all (k : RuleKind) : k ∈ all := by cases k <;> decide

theorem ofName?_name (k : RuleKind) : ofName? k.name = some k := by
  cases k <;> decide

theorem name_of_ofName? {name : String} {k : RuleKind} (h : ofName? name = some k) :
    k.name = name := by
  simpa using List.find?_some h

end RuleKind

end TreeDatabase
