import TreeDatabase.Number.Natural
import TreeDatabase.Text.Quoted

/-!
# Refusals of the store
-/

namespace TreeDatabase

/-- A handle of a node: its slot. A slot is used again after its node has been deleted. -/
structure NodeId where
  slot : Nat
  deriving DecidableEq, Repr

def NodeId.render (id : NodeId) : String := "#" ++ Number.numeral id.slot

inductive StoreFault where
  | nodeNotFound (id : NodeId)
  | invalidNodeName (name : String)
  | invalidPath (path : String)
  | multilineValue (path : String)
  | notEmpty (nodes : Nat)
  deriving DecidableEq, Repr

def StoreFault.message : StoreFault → String
  | nodeNotFound id => "Node not found: " ++ id.render
  | invalidNodeName name => "Invalid node name: " ++ Text.quoted name
  | invalidPath path => "Invalid path: " ++ Text.quoted path
  | multilineValue path => "Value of " ++ path ++ " spans more than one line"
  | notEmpty nodes => "Store is not empty: " ++ Number.numeral nodes ++ " nodes present"

end TreeDatabase
