import Std.Data.TreeMap
import TreeDatabase.Store.Fault
import TreeDatabase.Text.Split
import TreeDatabase.Vocabulary

/-!
# The store

A tree of named values. Nodes stand in slots; a handle is the number of a slot. Each node keeps its
dotted path, its parent and its children in the order in which they were inserted. The index leads
from a name to the paths of all nodes of that name. Slots of deleted nodes are free, and the one
freed last is used first.
-/

namespace TreeDatabase

structure Node where
  name : String
  value : String
  /-- The names from the root with dots between them; blank for the root. -/
  path : String
  parent : Option NodeId
  children : List NodeId
  deriving DecidableEq, Repr

def Node.isLeaf (n : Node) : Bool := n.children.isEmpty

/-- The handles of the nodes of one name, by path. -/
abbrev PathIndex := Std.TreeMap String NodeId

structure Store where
  nodes : Array (Option Node)
  free : List Nat
  index : Std.TreeMap String PathIndex

def childPath (parentPath name : String) : String :=
  if parentPath = "" then name else parentPath ++ "." ++ name

namespace Path

def segments (path : String) : List String := Text.splitOn '.' path

def first (path : String) : String := String.ofList (Text.cutAt (· == '.') path.toList).1

def last (path : String) : String := String.ofList (Text.afterLast (· == '.') path.toList)

end Path

namespace Store

def rootNode : Node := ⟨"", "", "", none, []⟩

def empty : Store := ⟨#[some rootNode], [], {}⟩

instance : Inhabited Store := ⟨empty⟩

def root : NodeId := ⟨0⟩

/-- The node of a handle, unless its slot is free. -/
def get? (s : Store) (id : NodeId) : Option Node := (s.nodes[id.slot]?).join

def children (s : Store) (id : NodeId) : List NodeId :=
  match s.get? id with
  | some node => node.children
  | none => []

/-- The number of nodes without the root. -/
def size (s : Store) : Nat := Number.total (s.index.values.map (·.size))

def isEmpty (s : Store) : Bool := s.index.isEmpty

def indexed? (s : Store) (name path : String) : Option NodeId :=
  s.index[name]?.bind fun paths => paths[path]?

/-- The node at a path; the blank path leads to the root. -/
def lookup (s : Store) (path : String) : Option NodeId :=
  if path = "" then some root else s.indexed? (Path.last path) path

def child? (s : Store) (parent : NodeId) (name : String) : Option NodeId :=
  (s.get? parent).bind fun node => s.indexed? name (childPath node.path name)

/-- Whether a node is the rule node at the top or below it. -/
def inRuleSubtree (s : Store) (id : NodeId) : Bool :=
  match s.get? id with
  | some node => node.path != "" && Path.first node.path == Vocabulary.ruleSubtree
  | none => false

/-- A handle together with the path of its node, when it has one. -/
def located? (s : Store) (id : NodeId) : Option (String × NodeId) :=
  (s.get? id).map fun node => (node.path, id)

/-- Takes one step of a path from each node. -/
def step (s : Store) (includeRules : Bool) (frontier : List NodeId) (segment : String) :
    List NodeId :=
  let next := frontier.flatMap fun id =>
    if segment = Vocabulary.wildcard then s.children id else (s.child? id segment).toList
  if includeRules then next else next.filter fun id => !s.inRuleSubtree id

/-- The nodes that a path leads to from the root. The word for the root may only come first; the
wildcard stands for every child. -/
def resolvePath (s : Store) (segments : List String) (includeRules : Bool) :
    List (String × NodeId) :=
  let names := match segments with
    | first :: rest => if first = Vocabulary.root then rest else segments
    | [] => []
  if names.contains Vocabulary.root then []
  else (names.foldl (s.step includeRules) [root]).filterMap s.located?

/-- The nodes of a name in the order of their paths. -/
def findByName (s : Store) (name : String) (includeRules : Bool) : List (String × NodeId) :=
  match s.index[name]? with
  | none => []
  | some paths => paths.toList.filter fun entry => includeRules || !s.inRuleSubtree entry.2

def findParentsOf (s : Store) (name : String) (includeRules : Bool) : List (String × NodeId) :=
  (s.findByName name includeRules).filterMap fun entry =>
    (s.get? entry.2).bind fun node => node.parent.bind s.located?

def containsName (s : Store) (name : String) : Bool := s.index.contains name

/-- The nodes other than the root, by slot. -/
def nodesBelowRoot (s : Store) : List Node := (s.nodes.toList.drop 1).filterMap id

/-- Whether some node other than the root holds the value. -/
def containsValue (s : Store) (value : String) : Bool :=
  s.nodesBelowRoot.any (·.value == value)

/-- The nodes outside the rule subtree with a name and a value. -/
def nodesWithValue (s : Store) (name value : String) : List NodeId :=
  ((s.findByName name false).map Prod.snd).filter fun id =>
    (s.get? id).any (·.value == value)

/-- Whether no two nodes outside the rule subtree share the name and the value. -/
def isUnique (s : Store) (name value : String) : Bool :=
  (s.nodesWithValue name value).length ≤ 1

/-- Visits nodes from a stack, each before its children and these in order; `enter` decides whether
a node and what lies below it is visited. None when more than `fuel` handles come off the stack. -/
def walk (s : Store) (enter : NodeId → Node → Bool) : (fuel : Nat) → List NodeId →
    Option (List (NodeId × Node))
  | _, [] => some []
  | 0, _ :: _ => none
  | fuel + 1, id :: stack =>
    match s.get? id with
    | none => s.walk enter fuel stack
    | some node =>
      if enter id node then (s.walk enter fuel (node.children ++ stack)).map ((id, node) :: ·)
      else s.walk enter fuel stack

/-- The visit of a node and what lies below it. No visit of a tree takes more steps than there are
slots. -/
def visit (s : Store) (enter : NodeId → Node → Bool) (id : NodeId) : List (NodeId × Node) :=
  (s.walk enter s.nodes.size [id]).getD []

/-- A node and all nodes below it, parents first. -/
def subtree (s : Store) (id : NodeId) : List NodeId := (s.visit (fun _ _ => true) id).map Prod.fst

def indexedPaths (s : Store) : List String :=
  (s.index.values.flatMap (·.keys)).mergeSort fun a b => decide (a ≤ b)

/-- The persisted rules of a ruleset, in the order of the kinds. -/
def rulesFor (s : Store) (ruleset : String) : List (RuleKind × String) :=
  match s.lookup (childPath Vocabulary.ruleSubtree ruleset) with
  | none => []
  | some id =>
    let rules := (s.children id).filterMap s.get?
    RuleKind.all.filterMap fun kind =>
      (rules.find? (·.name == kind.name)).map fun node => (kind, node.value)

def rulesetExists (s : Store) (ruleset : String) : Bool :=
  (s.lookup (childPath Vocabulary.ruleSubtree ruleset)).isSome

end Store

end TreeDatabase
