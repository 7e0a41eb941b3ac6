import TreeDatabase.Store.Update

/-!
# Progress of operations

The store as an operation has left it so far, with the lines and the number of nodes that it will
answer.
-/

namespace TreeDatabase

structure Progress where
  store : Store
  lines : List String := []
  count : Nat := 0
  changed : Bool := false

end TreeDatabase
