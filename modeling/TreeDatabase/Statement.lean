import TreeDatabase.DataFormat
import TreeDatabase.Statement.Fault
import TreeDatabase.Statement.Filter
import TreeDatabase.Text.Split

/-!
# Statements

A statement as it was read: a verb, a path with a selected name and value, children, a filter and
a number of repetitions. A statement with faults has the verb `error`.
-/

namespace TreeDatabase

/-- A place of a statement that a generator keyword can fill. Children are counted from zero. -/
inductive Field where
  | selectedName
  | selectedValue
  | childName (index : Nat)
  | childValue (index : Nat)
  deriving DecidableEq, Repr

def Field.isName : Field → Bool
  | .selectedName | .childName _ => true
  | _ => false

/-- A generator keyword in a statement: the field it fills, and the number of keywords before
it. -/
structure KeywordSite where
  generator : Generator
  parameter : Option String
  field : Field
  ordinal : Nat
  deriving DecidableEq, Repr

structure Statement where
  verb : Verb := .comment
  selectedName : String := ""
  /-- Blank when an equals sign has nothing after it. -/
  selectedValue : Option String := none
  /-- The path to the selected name, the outermost name first. -/
  parents : List String := []
  children : List (String × String) := []
  filter : Filter := {}
  repetitions : Nat := 1
  format : DataFormat := .basic
  faults : List Fault := []
  sites : List KeywordSite := []
  /-- What was read. -/
  text : String := ""
  deriving DecidableEq, Repr

namespace Statement

/-- Records a fault. Faults with one message are recorded once. -/
def addFault (s : Statement) (f : Fault) : Statement :=
  { s with
    verb := .error
    faults := if s.faults.any (·.message == f.message) then s.faults else s.faults ++ [f] }

def addFaults (s : Statement) (fs : List Fault) : Statement := fs.foldl addFault s

def isError (s : Statement) : Bool := s.verb = .error

def messages (s : Statement) : List String := s.faults.map Fault.message

/-- The names of the path, the selected name last. -/
def hierarchy (s : Statement) : List String := s.parents ++ [s.selectedName]

def path (s : Statement) : String := Text.joinWith "." s.hierarchy

def childNames (s : Statement) : List String := s.children.map Prod.fst

def childValue? (s : Statement) (name : String) : Option String := s.children.lookup name

def field? (s : Statement) : Field → Option String
  | .selectedName => some s.selectedName
  | .selectedValue => s.selectedValue
  | .childName i => s.children[i]?.map Prod.fst
  | .childValue i => s.children[i]?.map Prod.snd

def setField (s : Statement) (field : Field) (text : String) : Statement :=
  match field with
  | .selectedName => { s with selectedName := text }
  | .selectedValue => { s with selectedValue := some text }
  | .childName i => { s with children := s.children.modify i fun c => (text, c.2) }
  | .childValue i => { s with children := s.children.modify i fun c => (c.1, text) }

theorem addFaults_nil (s : Statement) : s.addFaults [] = s := rfl

@[simp] theorem isError_addFault (s : Statement) (f : Fault) : (s.addFault f).isError = true := by
  simp [addFault, isError]

end Statement

end TreeDatabase
