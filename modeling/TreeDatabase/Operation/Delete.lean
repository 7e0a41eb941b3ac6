import TreeDatabase.Operation.Progress
import TreeDatabase.Operation.Target
import TreeDatabase.Response

/-!
# Deleting

A deletion removes the targets that pass the filter, each with all that lies below it, and lists
the paths of the nodes it removed.
-/

namespace TreeDatabase.Statement

/-- Deletes one target below a parent, if it is still there and passes the filter. -/
def deleteTarget (s : Statement) (parent : NodeId) (p : Progress) (target : NodeId) : Progress :=
  match p.store.get? target with
  | none => p
  | some node =>
    if p.store.passes s.filter target then
      let (store, removed) := p.store.deleteChild parent node.name
      { store
        lines := p.lines ++ removed
        count := p.count + removed.length
        changed := p.changed || !removed.isEmpty }
    else p

def deleteBelow (s : Statement) (p : Progress) (parent : NodeId) : Progress :=
  (s.targets p.store parent).foldl (s.deleteTarget parent) p

def delete (s : Statement) (store : Store) : Store × Response :=
  let p := ((s.candidateParents store).map Prod.snd).foldl s.deleteBelow { store }
  (p.store, .counted .delete p.lines p.count p.changed)

end TreeDatabase.Statement
