import TreeDatabase.Store

/-!
# Changes of the store

Inserting, overwriting, deleting and renaming nodes. A change that is refused leaves the store as
it was. Each change keeps the index in step with the tree.
-/

namespace TreeDatabase.Store

/-- Whether a name can stand in a dotted path and before the colon of a record. -/
def isNodeName (name : String) : Bool :=
  name != "" && !name.toList.contains '.' && !name.toList.contains ':'

def addToIndex (s : Store) (name path : String) (id : NodeId) : Store :=
  { s with index := s.index.insert name ((s.index.getD name {}).insert path id) }

/-- Removes a path from the index, and with the last path of a name the name. -/
def removeFromIndex (s : Store) (name path : String) : Store :=
  match s.index[name]? with
  | none => s
  | some paths =>
    let rest := paths.erase path
    { s with index := if rest.isEmpty then s.index.erase name else s.index.insert name rest }

def modifyNode (s : Store) (id : NodeId) (f : Node → Node) : Store :=
  { s with nodes := s.nodes.modify id.slot (Option.map f) }

/-- Puts a node into the slot that was freed last, or into a new one. -/
def place (s : Store) (node : Node) : Store × NodeId :=
  match s.free with
  | slot :: free =>
    ({ s with nodes := s.nodes.setIfInBounds slot (some node), free := free }, ⟨slot⟩)
  | [] => ({ s with nodes := s.nodes.push (some node) }, ⟨s.nodes.size⟩)

/-- The child of a name, created with a value when it is missing; the flag says whether it was. -/
def insertOrGetChild (s : Store) (parent : NodeId) (name value : String) :
    Except StoreFault (Store × NodeId × Bool) :=
  if !isNodeName name then .error (.invalidNodeName name)
  else
    match s.child? parent name with
    | some id => .ok (s, id, false)
    | none =>
      match s.get? parent with
      | none => .error (.nodeNotFound parent)
      | some above =>
        let path := childPath above.path name
        let (placed, id) := s.place ⟨name, value, path, some parent, []⟩
        let linked := placed.modifyNode parent fun node =>
          { node with children := node.children ++ [id] }
        .ok (linked.addToIndex name path id, id, true)

def setValue (s : Store) (id : NodeId) (value : String) : Except StoreFault Store :=
  match s.get? id with
  | none => .error (.nodeNotFound id)
  | some _ => .ok (s.modifyNode id fun node => { node with value := value })

/-- Frees the slot of a node and takes it off the index. -/
def release (s : Store) (id : NodeId) : Store :=
  match s.get? id with
  | none => s
  | some node =>
    let freed := { s with nodes := s.nodes.setIfInBounds id.slot none, free := id.slot :: s.free }
    freed.removeFromIndex node.name node.path

/-- Deletes a child with all that lies below it; gives the paths that were removed. -/
def deleteChild (s : Store) (parent : NodeId) (name : String) : Store × List String :=
  match s.child? parent name with
  | none => (s, [])
  | some target =>
    let removed := s.visit (fun _ _ => true) target
    let released := (removed.map Prod.fst).foldl release s
    (released.modifyNode parent fun node =>
        { node with children := node.children.filter (· ≠ target) },
      removed.map (·.2.path))

/-- Gives a node the path that its name and its parent's path make, in the index too, where it
still stands under `indexedName`. -/
def repath (s : Store) (id : NodeId) (indexedName : String) : Store :=
  match s.get? id with
  | none => s
  | some node =>
    let above := (node.parent.bind s.get?).map (·.path)
    let path := childPath (above.getD "") node.name
    let moved := (s.removeFromIndex indexedName node.path).addToIndex node.name path id
    moved.modifyNode id fun node => { node with path := path }

/-- Gives every node of a subtree its new path after the node at the top, formerly `oldName`, has
been renamed. Parents come first in the list. -/
def repathAll (s : Store) (oldName : String) : List (NodeId × Node) → Store
  | [] => s
  | top :: below =>
    below.foldl (fun s entry => s.repath entry.1 entry.2.name) (s.repath top.1 oldName)

/-- Renames a child in its place; false when it is missing or a sibling has the new name. -/
def renameChild (s : Store) (parent : NodeId) (oldName newName : String) :
    Except StoreFault (Store × Bool) :=
  if !isNodeName newName then .error (.invalidNodeName newName)
  else
    match s.child? parent oldName with
    | none => .ok (s, false)
    | some target =>
      if oldName = newName then .ok (s, true)
      else if (s.child? parent newName).isSome then .ok (s, false)
      else
        let renamed := s.modifyNode target fun node => { node with name := newName }
        .ok (renamed.repathAll oldName (s.visit (fun _ _ => true) target), true)

/-- The rule node at the top, created when it is missing. -/
def ensureRuleSubtree (s : Store) : Except StoreFault (Store × NodeId) :=
  (s.insertOrGetChild root Vocabulary.ruleSubtree "").map fun (s, id, _) => (s, id)

/-- Inserts the rules of the given kinds that a ruleset lacks, with their default values, and
counts them. -/
def addDefaults (s : Store) (ruleset : NodeId) : List RuleKind → Except StoreFault (Store × Nat)
  | [] => .ok (s, 0)
  | kind :: kinds => do
    let (s, _, created) ← s.insertOrGetChild ruleset kind.name kind.default
    let (s, n) ← s.addDefaults ruleset kinds
    return (s, (if created then 1 else 0) + n)

/-- Completes a ruleset with default rules; a missing ruleset stays missing. -/
def ensureDefaultRuleset (s : Store) (ruleset : String) : Except StoreFault (Store × Nat) :=
  match s.lookup (childPath Vocabulary.ruleSubtree ruleset) with
  | none => .ok (s, 0)
  | some id => s.addDefaults id RuleKind.all

end TreeDatabase.Store

namespace TreeDatabase

/-- A change that was refused when part of it was done: the refusal, and the store it left. -/
structure Interruption where
  fault : StoreFault
  store : Store

/-- The result of one change of a larger one, which a refusal interrupts. -/
def Store.orInterrupt {α : Type} (s : Store) (r : Except StoreFault α) : Except Interruption α :=
  r.mapError fun fault => ⟨fault, s⟩

end TreeDatabase
