import TreeDatabase.Operation.Target
import TreeDatabase.Response

/-!
# Reading

A reading lists the subtrees of its targets, or of the children that it names in them. A node with
children that does not pass the filter is left out with all that lies below it.
-/

namespace TreeDatabase.Statement

/-- Whether a reading lists a node: one with children has to pass the filter. -/
def lists (s : Statement) (store : Store) (id : NodeId) (node : Node) : Bool :=
  node.isLeaf || store.passes s.filter id

/-- Where a reading starts in a target: at the target itself, or at the children it names. -/
def startNodes (s : Statement) (store : Store) (target : NodeId) : List NodeId :=
  if s.children.isEmpty then [target] else s.childNames.filterMap (store.child? target)

def readLine (node : Node) : String := node.path ++ ":" ++ node.value

/-- The nodes that a reading lists below one candidate parent. -/
def readBelow (s : Statement) (store : Store) (parent : NodeId) : List (NodeId × Node) :=
  (s.targets store parent).flatMap fun target =>
    (s.startNodes store target).flatMap (store.visit (s.lists store))

def read (s : Statement) (store : Store) : Response :=
  let nodes := (s.candidateParents store).flatMap fun entry => s.readBelow store entry.2
  .counted .read (nodes.map fun entry => readLine entry.2) nodes.length false

end TreeDatabase.Statement
