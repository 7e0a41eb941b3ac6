import TreeDatabase.Statement
import TreeDatabase.Text.Blank

/-!
# Validity of statements

What a statement must satisfy beyond its form: which names its verb admits, where it may give
values and children, and what a definition of rules looks like.
-/

namespace TreeDatabase.Statement

def isNameChar (c : Char) : Bool := c.isAlphanum || c == '-' || c == '_' || Text.isBlank c

/-- Whether a name has only letters, digits, dashes, underscores and blanks. -/
def isValidName (name : String) : Bool := name.toList.all isNameChar

def faultIf (condition : Bool) (f : Fault) : List Fault := if condition then [f] else []

def pathFaults (s : Statement) : List Fault :=
  faultIf (1 < s.hierarchy.count Vocabulary.wildcard) .repeatedWildcard ++
    faultIf (1 < s.hierarchy.count Vocabulary.ruleSubtree) .repeatedRuleNode

/-- Whether the path begins at the rule subtree, with more names after it. -/
def beginsAtRules (s : Statement) : Bool :=
  match s.parents with
  | [] => false
  | [first] => first == Vocabulary.ruleSubtree
  | first :: second :: _ =>
    first == Vocabulary.ruleSubtree ||
      (first == Vocabulary.root && second == Vocabulary.ruleSubtree)

/-- A write below the rule subtree defines rules. -/
def retarget (s : Statement) : Statement :=
  if s.verb = .write ∧ s.beginsAtRules then { s with verb := .enforce } else s

def hasValidNames (s : Statement) : Bool :=
  isValidName s.selectedName && s.parents.all isValidName && s.childNames.all isValidName

/-- Whether the root is the selected name or a child. -/
def namesRoot (s : Statement) : Bool :=
  s.selectedName == Vocabulary.root || s.childNames.contains Vocabulary.root

def readFaults (s : Statement) : List Fault :=
  faultIf s.selectedValue.isSome .readWithValue ++
    faultIf (s.children.any (·.2 != "")) .readWithChildValues

def writeFaults (s : Statement) : List Fault :=
  faultIf s.namesRoot .writeToRoot ++
    ((s.selectedName :: s.childNames).filter Vocabulary.isReserved).map .writeToReserved

def deleteFaults (s : Statement) : List Fault :=
  faultIf (Vocabulary.isReserved s.selectedName) (.deleteReserved s.selectedName) ++
    faultIf (Vocabulary.isRuleName s.selectedName) (.deleteRule s.selectedName) ++
    faultIf s.namesRoot .deleteRoot ++
    faultIf s.selectedValue.isSome .deleteWithValue ++
    faultIf (!s.children.isEmpty) .deleteWithChildren

def newNameFaults (name : String) : List Fault :=
  if name = "" then [.renameWithoutName]
  else if !isValidName name then [.nameCharacters]
  else if Vocabulary.isReserved name then [.renameToReserved name]
  else faultIf (Vocabulary.isKeyword name) (.renameToKeyword name)

def renameFaults (s : Statement) : List Fault :=
  faultIf (Vocabulary.isReserved s.selectedName) (.renameReserved s.selectedName) ++
    faultIf (Vocabulary.isRuleName s.selectedName) (.renameRule s.selectedName) ++
    faultIf s.namesRoot .renameRoot ++
    faultIf (!s.children.isEmpty) .renameWithChildren ++
    newNameFaults (s.selectedValue.getD "")

def isBadRulesetName (name : String) : Bool :=
  Vocabulary.isReserved name || Vocabulary.isKeyword name

/-- What is wrong with the path of a definition: the names in front of the selected one are given
from the last to the first. -/
def rulePathFaults (s : Statement) : List String → List Fault
  | [] => []
  | last :: before =>
    if last = Vocabulary.ruleSubtree then
      faultIf (isBadRulesetName s.selectedName) .rulesetName ++
        faultIf (s.selectedValue.getD "" != "") (.rulesetWithValue s.selectedName)
    else
      faultIf (!Vocabulary.isRuleName s.selectedName) .ruleName ++
        faultIf (before.head? != some Vocabulary.ruleSubtree || isBadRulesetName last) .rulesetName

def enforceFaults (s : Statement) : List Fault :=
  if s.parents = [] then []
  else
    s.rulePathFaults s.parents.reverse ++
      faultIf (Vocabulary.isRuleName s.selectedName && !s.children.isEmpty) .ruleWithChildren ++
      (s.childNames.filter (!Vocabulary.isRuleName ·)).map .unknownRule

def verbFaults (s : Statement) : List Fault :=
  match s.verb with
  | .read => s.readFaults
  | .write => s.writeFaults
  | .delete => s.deleteFaults
  | .rename => s.renameFaults
  | .enforce => s.enforceFaults
  | _ => []

/-- Renaming and definitions of rules leave keywords as they are written. -/
def settleSites (s : Statement) : Statement :=
  if s.verb = .rename ∨ s.verb = .enforce then { s with sites := [] } else s

/-- What the verb does not admit in the statement as a whole. -/
def argumentFaults (s : Statement) : List Fault :=
  faultIf (Text.isBlankText s.selectedName && s.verb.requiresArgument) (.missingArgument s.verb)

/-- Records the faults of a statement whose parts have been read. What a verb admits is looked at
only when the names are valid, and before a missing argument can hide the verb. -/
def validate (s : Statement) : Statement :=
  let r := (s.addFaults s.pathFaults).retarget
  let checked := r.addFaults r.argumentFaults
  if r.hasValidNames then (checked.addFaults r.verbFaults).settleSites
  else checked.addFault .nameCharacters

end TreeDatabase.Statement
