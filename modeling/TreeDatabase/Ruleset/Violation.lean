import TreeDatabase.RuleKind
import TreeDatabase.ValueType

/-!
# Violations of rules

What is wrong with the definition of a rule, or with a value under a rule.
-/

namespace TreeDatabase

inductive Violation where
  | rulesetMissing (ruleset : String)
  | invalidType
  | invalidBound (kind : RuleKind) (value : String) (type : ValueType)
  | invalidFlag (kind : RuleKind) (value : String)
  | boundsOutOfOrder
  | typeMismatch (node : String) (type : ValueType)
  | aboveMax (node max : String)
  | belowMin (node min : String)
  | required (node : String)
  | key (node : String)
  /-- Nodes that exist share a value. -/
  | notUnique (node : String)
  /-- A value to be written is the value of another node. -/
  | duplicate (node : String)
  deriving DecidableEq, Repr

namespace Violation

def heading : String := "Enforced Rule Violation: "

def message : Violation → String
  | rulesetMissing ruleset =>
    "Rule set " ++ ruleset ++ " does not exist. Either create the rule set first, or set the " ++
      "rule using the parent/children syntax ' write rule.ruleset: rule1 = ..., rule2 = ..., etc.'."
  | invalidType => "Invalid value for type."
  | invalidBound kind value type =>
    value ++ " is an invalid value for the rule " ++ kind.name ++ " when the node's type is " ++
      type.name ++ "."
  | invalidFlag kind value =>
    value ++ " is an invalid value for the rule " ++ kind.name ++ ", it must be true or false."
  | boundsOutOfOrder => "Min cannot be greater than max."
  | typeMismatch node .date =>
    heading ++ node ++ " must have a valid date value in mm/dd/yyyy format."
  | typeMismatch node .time =>
    heading ++ node ++ " must have a valid time value in HH:mm:ss format."
  | typeMismatch node type => heading ++ node ++ " must have a valid " ++ type.name ++ " value."
  | aboveMax node max => heading ++ node ++ " cannot be greater than the max value " ++ max ++ "."
  | belowMin node min => heading ++ node ++ " cannot be less than the min value " ++ min ++ "."
  | required node => heading ++ node ++ " is a required field and cannot be left blank."
  | key node => heading ++ node ++ " is a key field and cannot be left blank."
  | notUnique node => heading ++ "Nodes named " ++ node ++ " are not unique."
  | duplicate node => heading ++ "All " ++ node ++ " nodes must have unique values."

end Violation

end TreeDatabase
