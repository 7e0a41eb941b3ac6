import TreeDatabase.Store.Update

/-!
# Records

A store is written as records, the path and the value of each node but the root, and built from
them again. Records are merged in the order of their paths; the first one that is refused interrupts
the merge.
-/

namespace TreeDatabase

structure Record where
  path : String
  value : String
  deriving DecidableEq, Repr

def Record.render (r : Record) : String := r.path ++ ":" ++ r.value

namespace Store

/-- The records of all nodes but the root, in descending order of their paths. -/
def toRecords (s : Store) : List Record :=
  (s.nodesBelowRoot.map fun node => ⟨node.path, node.value⟩).mergeSort
    fun a b => decide (b.path ≤ a.path)

/-- Walks down from a node by names, inserting the nodes that are missing. -/
def insertPath (s : Store) (id : NodeId) : List String → Except Interruption (Store × NodeId)
  | [] => .ok (s, id)
  | name :: names => do
    let (s, id, _) ← s.orInterrupt (s.insertOrGetChild id name "")
    s.insertPath id names

def recordFault? (r : Record) : Option StoreFault :=
  if (Path.segments r.path).contains "" then some (.invalidPath r.path)
  else if r.value.toList.contains '\n' || r.value.toList.contains '\r' then
    some (.multilineValue r.path)
  else none

def mergeRecord (s : Store) (r : Record) : Except Interruption Store :=
  match recordFault? r with
  | some fault => .error ⟨fault, s⟩
  | none => do
    let (s, id) ← s.insertPath root (Path.segments r.path)
    s.orInterrupt (s.setValue id r.value)

/-- Records in ascending order of their paths; of records with one path, the earlier comes first. -/
def sortRecords (rs : List Record) : List Record :=
  rs.mergeSort fun a b => decide (a.path ≤ b.path)

/-- Writes records over the tree and counts them. -/
def merge (s : Store) (rs : List Record) : Except Interruption (Store × Nat) :=
  ((sortRecords rs).foldlM mergeRecord s).map (·, rs.length)

/-- Loads records into a store without nodes. -/
def load (s : Store) (rs : List Record) : Except Interruption (Store × Nat) :=
  if s.isEmpty then s.merge rs else .error ⟨.notEmpty s.size, s⟩

end Store

end TreeDatabase
