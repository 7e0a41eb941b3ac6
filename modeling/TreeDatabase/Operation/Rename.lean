import TreeDatabase.Operation.Progress
import TreeDatabase.Operation.Target
import TreeDatabase.Response

/-!
# Renaming

A renaming gives the targets that pass the filter a new name, unless a sibling has it, and lists
what became of each.
-/

namespace TreeDatabase.Statement

def newName (s : Statement) : String := s.selectedValue.getD ""

def renamedLine (oldPath newPath : String) : String :=
  oldPath ++ " renamed to " ++ newPath ++ "."

def refusedLine (path name : String) : String :=
  path ++ " was not renamed, a sibling named " ++ name ++ " already exists."

/-- Renames one target below a parent, if it passes the filter. -/
def renameTarget (s : Statement) (parent : NodeId) (p : Progress) (target : NodeId) :
    Except Interruption Progress :=
  match p.store.get? target with
  | none => .ok p
  | some node =>
    if p.store.passes s.filter target then do
      let (store, accepted) ←
        p.store.orInterrupt (p.store.renameChild parent node.name s.newName)
      if accepted then
        let newPath := ((store.get? target).map (·.path)).getD ""
        return { store
                 lines := p.lines ++ [renamedLine node.path newPath]
                 count := p.count + 1
                 changed := p.changed || node.name != s.newName }
      else return { p with store, lines := p.lines ++ [refusedLine node.path s.newName] }
    else .ok p

def renameBelow (s : Statement) (p : Progress) (parent : NodeId) : Except Interruption Progress :=
  (s.targets p.store parent).foldlM (s.renameTarget parent) p

def rename (s : Statement) (store : Store) : Except Interruption (Store × Response) := do
  let p ← ((s.candidateParents store).map Prod.snd).foldlM s.renameBelow { store }
  return (p.store, .counted .rename p.lines p.count p.changed)

end TreeDatabase.Statement
