/-!
# Basic Latin text

Letter case and comparison without case, over the Basic Latin block only: other characters have
no case here.
-/

namespace TreeDatabase.Text

/-- Whether every character is in the Basic Latin block. -/
def isBasicLatin (s : String) : Bool := s.toList.all fun c => c.toNat < 128

def lower (s : String) : String := String.ofList (s.toList.map Char.toLower)

def equalsIgnoringCase (a b : String) : Bool := lower a == lower b

/-- The text with a Basic Latin first letter made upper case. -/
def capitalize (s : String) : String :=
  match s.toList with
  | [] => ""
  | c :: cs => String.ofList (c.toUpper :: cs)

end TreeDatabase.Text
