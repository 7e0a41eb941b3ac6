import TreeDatabase.RepeatCount
import TreeDatabase.Ruleset.Violation
import TreeDatabase.Store.Fault
import TreeDatabase.Vocabulary

/-!
# Faults of statements

What is wrong with a statement, from the reading of its text to its effect on the store.
-/

namespace TreeDatabase

inductive Fault where
  | notBasicLatin
  | unreadable (text : String)
  | repetition (fault : RepeatFault)
  | unknownOperation (text : String)
  | needlessArgument (verb : Verb)
  | emptyPathName (path : String)
  | emptyChildName
  | duplicateChildren
  | emptyCondition
  | unreadableCondition (item : String)
  | repeatedWildcard
  | repeatedRuleNode
  | missingArgument (verb : Verb)
  | nameCharacters
  | readWithValue
  | readWithChildValues
  | writeToRoot
  | writeToReserved (name : String)
  | deleteReserved (name : String)
  | deleteRule (name : String)
  | deleteRoot
  | deleteWithValue
  | deleteWithChildren
  | renameReserved (name : String)
  | renameRule (name : String)
  | renameRoot
  | renameWithChildren
  | renameWithoutName
  | renameToReserved (name : String)
  | renameToKeyword (name : String)
  | rulesetName
  | rulesetWithValue (ruleset : String)
  | ruleName
  | ruleWithChildren
  | unknownRule (name : String)
  /-- A rule that the statement would break or define badly. -/
  | violation (violation : Violation)
  /-- A refusal of the store. -/
  | refusal (fault : StoreFault)
  deriving DecidableEq, Repr

namespace Fault

def message : Fault → String
  | notBasicLatin => "Invalid characters encountered, only Unicode - Basic Latin is allowed."
  | unreadable text => "Illegal characters found in query: \"" ++ text ++ "\"."
  | repetition fault => fault.message
  | unknownOperation text => "Cannot interpret operation in query: \"" ++ text ++ "\"."
  | needlessArgument verb => verb.title ++ " should not have any arguments."
  | emptyPathName path => "Node path '" ++ path ++ "' contains an empty name."
  | emptyChildName => "Child names cannot be empty."
  | duplicateChildren => "Children names cannot contain duplicates."
  | emptyCondition => "A where condition requires at least one field."
  | unreadableCondition item => "Cannot interpret where condition item '" ++ item ++ "'."
  | repeatedWildcard => "Child keyword cannot be used repeatedly in a statement."
  | repeatedRuleNode => "Rule node name cannot be used repeatedly in a statement."
  | missingArgument verb => verb.title ++ " requires an argument."
  | nameCharacters =>
    "Node names can only contain letters, numbers, spaces, dashes, and underscores."
  | readWithValue => "Cannot set a value for the read operation."
  | readWithChildValues => "Children names cannot have values for the read operation."
  | writeToRoot => "Root is not a valid node to be written to."
  | writeToReserved name => "Cannot write to reserved word '" ++ name ++ "'."
  | deleteReserved name => "Cannot delete reserved word '" ++ name ++ "'."
  | deleteRule name => "Cannot delete node rule '" ++ name ++ "'."
  | deleteRoot => "Cannot delete root node."
  | deleteWithValue => "Cannot set a value for the delete operation."
  | deleteWithChildren => "Child nodes cannot be used in the delete operation."
  | renameReserved name => "Cannot rename reserved word '" ++ name ++ "'."
  | renameRule name => "Cannot rename node rule '" ++ name ++ "'."
  | renameRoot => "Root cannot be renamed."
  | renameWithChildren => "Child nodes cannot be used in the rename operation."
  | renameWithoutName => "A value for renaming is required."
  | renameToReserved name => "Cannot rename to reserved word '" ++ name ++ "'."
  | renameToKeyword name => "Cannot rename to keyword '" ++ name ++ "'."
  | rulesetName => "Invalid rule set name."
  | rulesetWithValue ruleset =>
    Vocabulary.ruleSubtree ++ "." ++ ruleset ++ " cannot have a value written to it."
  | ruleName => "Invalid rule name."
  | ruleWithChildren => "Cannot set grandchildren for a rule definition node."
  | unknownRule name => name ++ " is an invalid rule name."
  | violation v => v.message
  | refusal fault => fault.message

end Fault

end TreeDatabase
