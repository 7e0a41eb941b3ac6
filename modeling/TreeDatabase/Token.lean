import TreeDatabase.Generator
import TreeDatabase.Text.Blank

/-!
# Tokens

A statement is read as a list of tokens. `Token.render` writes a token back, and `Token.text` is
what it contributes to a name or a value.
-/

namespace TreeDatabase

inductive Token where
  /-- A run of name characters. -/
  | word (text : String)
  /-- The text between two quotes of one kind. -/
  | quoted (text : String) (quote : Char)
  /-- A time of day in digits. -/
  | time (text : String)
  /-- A generator keyword as it was spelled, and how many came before it. -/
  | keyword (generator : Generator) (raw : String) (ordinal : Nat)
  | dot
  | colon
  | equals
  | comma
  /-- A run of blanks. -/
  | space
  deriving DecidableEq, Repr

namespace Token

def text : Token → String
  | word t => t
  | quoted t _ => t
  | time t => t
  | keyword _ raw _ => raw
  | dot => "."
  | colon => ":"
  | equals => "="
  | comma => ","
  | space => " "

/-- The token as it stands in a statement, a run of blanks as one. -/
def render : Token → List Char
  | quoted t q => q :: t.toList ++ [q]
  | t => t.text.toList

def isSpace : Token → Bool
  | space => true
  | _ => false

/-- Whether the token is a word or keyword of letters, digits and underscores. -/
def isIdentifier : Token → Bool
  | word t | keyword _ t _ => t.toList.all fun c => c.isAlphanum || c == '_'
  | _ => false

def isQuotedOrTime : Token → Bool
  | quoted _ _ | time _ => true
  | _ => false

def isWord (w : String) (t : Token) : Bool := t == word w

def trimSpaces (ts : List Token) : List Token := Text.trimBy isSpace ts

/-- The texts of tokens put together, without the blanks at both ends. -/
def joinText (ts : List Token) : String :=
  String.ofList (Text.trimChars (ts.flatMap fun t => t.text.toList))

end Token

end TreeDatabase
