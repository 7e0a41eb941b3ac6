import TreeDatabase.Generator
import TreeDatabase.RuleKind
import TreeDatabase.ValueType
import TreeDatabase.Verb

/-!
# Words with a meaning

The words that statements cannot use as they please: reserved words, which name no node that a
statement writes, and keywords, which stand for something else.
-/

namespace TreeDatabase.Vocabulary

/-- Anchors a path at the root of the tree. -/
def root : String := "Root"

/-- Stands for every child of the node before it in a path. -/
def wildcard : String := "Child"

/-- Names the subtree that holds the rulesets. -/
def ruleSubtree : String := "rule"

/-- Stands before the number of times that a statement is repeated. -/
def repetition : String := "Times"

/-- Stands between the argument of a statement and its filter, in any letter case. -/
def condition : String := "where"

def commentMarker : String := "//"

def reservedWords : List String :=
  Verb.operations.map Verb.name ++ [Verb.comment.name, ruleSubtree, "config"] ++
    RuleKind.all.map RuleKind.name ++ ValueType.all.map ValueType.name

def isReserved (word : String) : Bool := reservedWords.contains word

def isRuleName (word : String) : Bool := (RuleKind.ofName? word).isSome

theorem exists_kind_of_isRuleName {word : String} (h : isRuleName word = true) :
    ∃ kind : RuleKind, kind.name = word := by
  obtain ⟨kind, hkind⟩ := Option.isSome_iff_exists.mp h
  exact ⟨kind, RuleKind.name_of_ofName? hkind⟩

/-- Whether a word is a path keyword or a generator keyword in its canonical spelling. -/
def isKeyword (word : String) : Bool :=
  word == root || word == wildcard || word == repetition || (Generator.ofName? word).isSome

end TreeDatabase.Vocabulary
