import TreeDatabase.Text.Blank

/-!
# Scripts

A script is divided into statements by semicolons. A semicolon right after a backslash does not
divide.
-/

namespace TreeDatabase

/-- A statement of a script and the line on which it begins, counted from one. -/
structure ScriptStatement where
  text : String
  line : Nat
  deriving DecidableEq, Repr

namespace Script

/-- The parts between the semicolons that divide, the first of them after the character
`previous`. -/
def parts : (previous : Option Char) → List Char → List (List Char)
  | _, [] => [[]]
  | previous, c :: cs =>
    if c = ';' ∧ previous ≠ some '\\' then [] :: parts (some c) cs
    else
      match parts (some c) cs with
      | [] => [[c]]
      | part :: rest => (c :: part) :: rest

def countLines (cs : List Char) : Nat := cs.count '\n'

/-- The statements of parts of which the first begins on a line. Blank parts do not count. -/
def number : (line : Nat) → List (List Char) → List ScriptStatement
  | _, [] => []
  | line, part :: rest =>
    let text := Text.trimChars part
    let later := number (line + countLines part) rest
    if text = [] then later
    else ⟨String.ofList text, line + countLines (part.takeWhile Text.isBlank)⟩ :: later

def split (text : String) : List ScriptStatement := number 1 (parts none text.toList)

/-- Divides a text behind the last semicolon that divides: what stands before, unless there is no
such semicolon, and what follows. -/
def takeComplete (text : String) : Option String × String :=
  let pieces := parts none text.toList
  let rest := pieces.getLast?.getD []
  if pieces.length ≤ 1 then (none, text)
  else
    (some (String.ofList (text.toList.take (text.length - rest.length))), String.ofList rest)

end Script

end TreeDatabase
