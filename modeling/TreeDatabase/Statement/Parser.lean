import TreeDatabase.Statement.Argument
import TreeDatabase.Statement.Clauses
import TreeDatabase.Statement.Condition
import TreeDatabase.Statement.Validity
import TreeDatabase.Text.Ascii
import TreeDatabase.Token.Lexer

/-!
# Reading statements

`Statement.parse` reads every text: what is wrong with it becomes faults of the statement.
-/

namespace TreeDatabase.Statement

/-- Removes a semicolon at the end, with the blanks before it, unless a backslash escapes it. -/
def stripTerminator (cs : List Char) : List Char :=
  match cs.reverse with
  | ';' :: '\\' :: _ => cs
  | ';' :: before => Text.dropEndWhile Text.isBlank before.reverse
  | _ => cs

/-- Reads an escaped semicolon as a semicolon. -/
def unescape : List Char → List Char
  | '\\' :: ';' :: cs => ';' :: unescape cs
  | c :: cs => c :: unescape cs
  | [] => []

def withClauses (s : Statement) (c : Clauses) : Statement :=
  let s := { s with verb := c.verb }
  if c.verb.isBare then
    if c.argument = [] then s else s.addFault (.needlessArgument c.verb)
  else
    let s := s.withArgument (Argument.ofTokens c.argument)
    match c.condition with
    | none => s
    | some ts => s.withCondition ts

def interpret (s : Statement) (ts : List Token) : Statement :=
  match Clauses.takeRepetitions ts with
  | .error fault => s.addFault (.repetition fault)
  | .ok (ts, n) =>
    let s := { s with repetitions := n }
    match Clauses.ofTokens? ts with
    | none => s.addFault (.unknownOperation s.text)
    | some clauses => (s.withClauses clauses).validate

def ofText (text : String) : Statement :=
  let s : Statement := { text }
  if text = "" then s
  else if !Text.isBasicLatin text then s.addFault .notBasicLatin
  else
    let body := unescape text.toList
    if Vocabulary.commentMarker.toList.isPrefixOf body then s
    else
      match Token.tokenize (String.ofList body) with
      | .error _ => s.addFault (.unreadable text)
      | .ok ts => s.interpret ts

def parse (text : String) : Statement :=
  ofText (String.ofList (stripTerminator (Text.trimChars text.toList)))

end TreeDatabase.Statement
