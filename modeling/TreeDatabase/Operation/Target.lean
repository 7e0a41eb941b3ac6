import TreeDatabase.Statement
import TreeDatabase.Store

/-!
# Targets of statements

A statement is about the nodes of its selected name under candidate parents, which its path finds.
Without a path these are the parents of all nodes of that name.
-/

namespace TreeDatabase

namespace Store

/-- Whether a node passes a filter: one of its children or grandchildren is accepted. Every node
passes the filter without items. -/
def passes (store : Store) (filter : Filter) (id : NodeId) : Bool :=
  let accepted (id : NodeId) : Bool := (store.get? id).any fun n => filter.accepts n.name n.value
  filter.isEmpty ||
    (store.children id).any fun child => accepted child || (store.children child).any accepted

end Store

namespace Statement

def includesRules (s : Statement) : Bool := s.hierarchy.contains Vocabulary.ruleSubtree

def selectsAll (s : Statement) : Bool :=
  s.selectedName == Vocabulary.wildcard || s.selectedName == Vocabulary.root

/-- The nodes below a parent that the selected name stands for. -/
def targets (s : Statement) (store : Store) (parent : NodeId) : List NodeId :=
  if s.selectsAll then
    (store.children parent).filter fun id => s.includesRules || !store.inRuleSubtree id
  else (store.child? parent s.selectedName).toList

/-- The nodes that the path in front of the selected name leads to. Without a path they are the
parents of the nodes of the selected name; a new node is written below the root. -/
def parentNodes (s : Statement) (store : Store) : List (String × NodeId) :=
  if s.parents ≠ [] then store.resolvePath s.parents s.includesRules
  else if s.selectsAll then [("", Store.root)]
  else
    let found := store.findParentsOf s.selectedName s.includesRules
    if found.isEmpty && s.verb == .write then [("", Store.root)] else found

/-- The parents under which the selected name is looked for, in the order of their paths. Writing
asks for the filter, other verbs for a target. -/
def candidateParents (s : Statement) (store : Store) : List (String × NodeId) :=
  let suitable := (s.parentNodes store).filter fun entry =>
    if s.verb = .write then store.passes s.filter entry.2
    else !(s.targets store entry.2).isEmpty
  (suitable.mergeSort fun a b => decide (a.1 ≤ b.1)).eraseReps

end Statement

end TreeDatabase
