import TreeDatabase.Operation.Delete
import TreeDatabase.Operation.Read
import TreeDatabase.Operation.Rename
import TreeDatabase.Operation.Write

/-!
# Operations

The five verbs that read or change the store.
-/

namespace TreeDatabase.Statement

/-- Executes a statement on a store; other verbs answer nothing. -/
def executeOn (s : Statement) (store : Store) : Except Interruption (Store × Response) :=
  match s.verb with
  | .read => .ok (store, s.read store)
  | .write => s.write store
  | .delete => .ok (s.delete store)
  | .rename => s.rename store
  | .enforce => s.enforce store
  | verb => .ok (store, .message verb "")

end TreeDatabase.Statement
