import TreeDatabase.Text.Ascii

/-!
# Verbs

What a statement asks for. Eight verbs are written by name; the others are found by the parser.
-/

namespace TreeDatabase

inductive Verb where
  | read
  | write
  | delete
  | rename
  /-- A write into the rule subtree. -/
  | enforce
  | exit
  | begin
  | commit
  | rollback
  /-- A comment or an empty statement. -/
  | comment
  /-- A statement with faults. -/
  | error
  deriving DecidableEq, Repr

namespace Verb

def all : List Verb :=
  [read, write, delete, rename, enforce, exit, begin, commit, rollback, comment, error]

def operations : List Verb := [read, write, delete, rename, exit, begin, commit, rollback]

def name : Verb → String
  | read => "read"
  | write => "write"
  | delete => "delete"
  | rename => "rename"
  | enforce => "enforce"
  | exit => "exit"
  | begin => "begin"
  | commit => "commit"
  | rollback => "rollback"
  | comment => "comment"
  | error => "error"

def ofName? (word : String) : Option Verb := all.find? (·.name == word)

/-- The verb that a word names, in any letter case. -/
def ofPhrase? (phrase : String) : Option Verb :=
  operations.find? fun v => Text.equalsIgnoringCase v.name phrase

def pastTense : Verb → String
  | read => "read"
  | write => "written"
  | delete => "deleted"
  | rename => "renamed"
  | enforce => "enforced"
  | v => v.name

def title (v : Verb) : String := Text.capitalize v.name

def requiresArgument : Verb → Bool
  | read | write | delete | rename => true
  | _ => false

def isMutating : Verb → Bool
  | write | delete | rename | enforce => true
  | _ => false

def isBare : Verb → Bool
  | exit | begin | commit | rollback => true
  | _ => false

theorem ofName?_name (v : Verb) : ofName? v.name = some v := by
  cases v <;> decide

end Verb

end TreeDatabase
