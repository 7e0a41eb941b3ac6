/-!
# Trimming lists

`dropEndWhile` is `List.dropWhile` from the other end, and `trimBy` drops at both ends.
-/

namespace TreeDatabase.Text

variable {α : Type}

/-- Drops the longest part at the end whose elements all satisfy `p`. -/
def dropEndWhile (p : α → Bool) : List α → List α
  | [] => []
  | a :: as =>
    match dropEndWhile p as with
    | [] => if p a then [] else [a]
    | rest => a :: rest

def trimBy (p : α → Bool) (as : List α) : List α := dropEndWhile p (as.dropWhile p)

end TreeDatabase.Text
