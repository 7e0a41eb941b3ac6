import TreeDatabase.Statement

/-!
# Responses

What one execution of a statement answers: lines, a number of nodes and a summary.
-/

namespace TreeDatabase

structure Response where
  verb : Verb
  /-- Of a reading, a path and a value each, with a colon between them. -/
  lines : List String := []
  count : Nat := 0
  summary : String
  /-- Whether the store was changed. -/
  changed : Bool := false
  deriving DecidableEq, Repr

namespace Response

/-- The summary of an execution that affected a number of nodes. -/
def summaryFor (verb : Verb) : Nat → String
  | 0 => "No nodes " ++ verb.pastTense ++ "."
  | 1 => "1 node " ++ verb.pastTense ++ "."
  | n => Number.numeral n ++ " nodes " ++ verb.pastTense ++ "."

def counted (verb : Verb) (lines : List String) (count : Nat) (changed : Bool) : Response :=
  ⟨verb, lines, count, summaryFor verb count, changed⟩

def message (verb : Verb) (summary : String) : Response := { verb, summary }

def ofFaults (s : Statement) : Response := message .error (Text.joinWith "\n" s.messages)

def isError (r : Response) : Bool := r.verb = .error

def text (r : Response) : String :=
  let lines := Text.joinWith "\n" r.lines
  if lines ≠ "" ∧ r.summary ≠ "" then lines ++ "\n" ++ r.summary else lines ++ r.summary

end Response

end TreeDatabase
