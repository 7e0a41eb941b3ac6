import TreeDatabase.Operation.Progress
import TreeDatabase.Operation.Target
import TreeDatabase.Response
import TreeDatabase.Ruleset

/-!
# Writing and defining rules

A write plans the values of all its targets and their children, has the plan checked against the
rules, and only then changes the store. A definition of rules is checked as a whole, writes the
rules it gives, and completes the ruleset with defaults.
-/

namespace TreeDatabase.Statement

/-- The names that a write writes below a parent: the selected one, or those of the existing
children that the wildcard stands for. -/
def writtenNames (s : Statement) (store : Store) (parent : NodeId) : List String :=
  if s.selectedName = Vocabulary.wildcard then
    ((s.targets store parent).filterMap store.get?).map (·.name)
  else [s.selectedName]

/-- The plan for a child of a target. A blank value keeps the value that the child has. -/
def plannedChild (store : Store) (target : Option NodeId) (child : String × String) :
    PendingWrite :=
  let existing := target.bind fun id => store.child? id child.1
  let current := ((existing.bind store.get?).map (·.value)).getD ""
  ⟨child.1, if child.2 = "" then current else child.2, existing⟩

/-- The plan for a name below a parent and for its children. -/
def plannedTarget (s : Statement) (store : Store) (parent : NodeId) (name : String) :
    List PendingWrite :=
  let existing := store.child? parent name
  let current := (existing.bind store.get?).map (·.value)
  ⟨name, (s.selectedValue.or current).getD "", existing⟩ ::
    s.children.map (plannedChild store existing)

/-- The plan of a write below the given parents. -/
def planWrites (s : Statement) (store : Store) (parents : List NodeId) : List PendingWrite :=
  parents.flatMap fun parent =>
    (s.writtenNames store parent).flatMap (s.plannedTarget store parent)

/-- The line for a node that was written: whether it is new, its path, the value that was given
and whether this value is new. -/
def writtenLine (created : Bool) (path : String) (value : Option String) (differs : Bool) :
    String :=
  match created, value with
  | true, some v =>
    if v = "" then "New node " ++ path ++ " created."
    else "New node " ++ path ++ " created, value set to '" ++ v ++ "'."
  | true, none => "New node " ++ path ++ " created."
  | false, some v =>
    if differs then path ++ " value set to '" ++ v ++ "'." else path ++ " was not modified."
  | false, none => path ++ " was not modified."

/-- Creates or overwrites one node below a parent. -/
def writeNode (p : Progress) (parent : NodeId) (name : String) (value : Option String) :
    Except Interruption (Progress × NodeId) := do
  let (store, id, created) ←
    p.store.orInterrupt (p.store.insertOrGetChild parent name (value.getD ""))
  let path := ((store.get? id).map (·.path)).getD ""
  let current := ((store.get? id).map (·.value)).getD ""
  let differs := value.any (· != current)
  let store ← match value with
    | some v => if differs then store.orInterrupt (store.setValue id v) else .ok store
    | none => .ok store
  let progress : Progress :=
    { store
      lines := p.lines ++ [writtenLine created path value differs]
      count := p.count + 1
      changed := p.changed || created || differs }
  return (progress, id)

/-- Writes a child of a target. A blank value gives none. -/
def writeChild (target : NodeId) (p : Progress) (child : String × String) :
    Except Interruption Progress :=
  (writeNode p target child.1 (if child.2 = "" then none else some child.2)).map Prod.fst

/-- Writes a name below a parent, and then its children. -/
def writeTarget (s : Statement) (parent : NodeId) (p : Progress) (name : String) :
    Except Interruption Progress := do
  let (p, target) ← writeNode p parent name s.selectedValue
  s.children.foldlM (writeChild target) p

def writeBelow (s : Statement) (p : Progress) (parent : NodeId) : Except Interruption Progress :=
  (s.writtenNames p.store parent).foldlM (s.writeTarget parent) p

def refuse (s : Statement) (violations : List Violation) : Response :=
  .ofFaults (s.addFaults (violations.map .violation))

def write (s : Statement) (store : Store) : Except Interruption (Store × Response) :=
  let parents := (s.candidateParents store).map Prod.snd
  let violations := Ruleset.writeViolations store (s.planWrites store parents)
  if violations ≠ [] then .ok (store, s.refuse violations)
  else do
    let p ← parents.foldlM s.writeBelow { store }
    return (p.store, .counted .write p.lines p.count p.changed)

/-- The statement without the children whose value is blank, which leave their rules as they
are. -/
def withoutBlankChildren (s : Statement) : Statement :=
  { s with children := s.children.filter (·.2 ≠ "") }

def enforce (s : Statement) (store : Store) : Except Interruption (Store × Response) :=
  let violations := Ruleset.enforceViolations store s
  if violations ≠ [] then .ok (store, s.refuse violations)
  else do
    let ruleset := (Ruleset.target? s).getD ""
    let (store, _) ← store.orInterrupt store.ensureRuleSubtree
    let parents := (store.resolvePath s.parents true).map Prod.snd
    let p ← parents.foldlM s.withoutBlankChildren.writeBelow { store }
    let (store, created) ← p.store.orInterrupt (p.store.ensureDefaultRuleset ruleset)
    let response : Response :=
      { verb := .enforce
        count := p.count
        summary := "Rules set for " ++ ruleset ++ "."
        changed := p.changed || created != 0 }
    return (store, response)

end TreeDatabase.Statement
