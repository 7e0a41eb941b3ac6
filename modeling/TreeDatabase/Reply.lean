import TreeDatabase.Response

/-!
# Replies

The answer to a statement that may have been repeated: its distinct responses in the order in which
they came, each with the number of times it came.
-/

namespace TreeDatabase

structure Tally where
  response : Response
  times : Nat
  deriving DecidableEq, Repr

namespace Tally

def record (r : Response) : List Tally → List Tally
  | [] => [⟨r, 1⟩]
  | t :: ts => if t.response = r then ⟨r, t.times + 1⟩ :: ts else t :: record r ts

def mark (t : Tally) : String := if t.times = 1 then "" else " (*" ++ Number.numeral t.times ++ ")"

def text (t : Tally) : String := t.response.text ++ t.mark

end Tally

structure Reply where
  /-- The statement before its keywords were resolved. -/
  statement : Statement
  tallies : List Tally
  deriving DecidableEq, Repr

namespace Reply

def isError (r : Reply) : Bool := r.tallies.any (·.response.isError)

/-- The number of nodes affected by all repetitions together. -/
def count (r : Reply) : Nat := Number.total (r.tallies.map fun t => t.response.count * t.times)

def text (r : Reply) : String := Text.joinWith "\n" (r.tallies.map Tally.text)

end Reply

end TreeDatabase
