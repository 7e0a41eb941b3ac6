import TreeDatabase.Number.Natural
import TreeDatabase.Text.Quoted

/-!
# JSON documents

Documents of JSON and their indented written form. The members of an object keep their order.
-/

namespace TreeDatabase

inductive Json where
  | null
  | number (n : Nat)
  | string (s : String)
  | array (items : List Json)
  | object (members : List (String × Json))

namespace Json

/-- How a character is written in a string: a quote, a backslash and the control characters are
escaped. -/
def escapedChar (c : Char) : List Char :=
  match c with
  | '"' => ['\\', '"']
  | '\\' => ['\\', '\\']
  | '\x08' => ['\\', 'b']
  | '\x0c' => ['\\', 'f']
  | '\n' => ['\\', 'n']
  | '\r' => ['\\', 'r']
  | '\t' => ['\\', 't']
  | _ =>
    if c.toNat < 0x20 then
      ['\\', 'u', '0', '0'] ++ List.replicate (2 - (Number.hexDigits c.toNat).length) '0' ++
        Number.hexDigits c.toNat
    else [c]

def renderString (s : String) : List Char := '"' :: s.toList.flatMap escapedChar ++ ['"']

/-- A new line with an indentation of so many steps of two blanks. -/
def newLine (depth : Nat) : List Char := '\n' :: List.replicate (2 * depth) ' '

def bracketed (opening closing : Char) (depth : Nat) (items : List (List Char)) : List Char :=
  match items with
  | [] => [opening, closing]
  | first :: rest =>
    opening :: newLine (depth + 1) ++ first ++
      rest.flatMap (fun item => ',' :: newLine (depth + 1) ++ item) ++
      newLine depth ++ [closing]

mutual

/-- The indented form of a document that stands at a depth of nesting. -/
def renderAt (depth : Nat) : Json → List Char
  | null => "null".toList
  | number n => Nat.toDigits 10 n
  | string s => renderString s
  | array items => bracketed '[' ']' depth (renderItems (depth + 1) items)
  | object members => bracketed '\x7b' '\x7d' depth (renderMembers (depth + 1) members)

def renderItems (depth : Nat) : List Json → List (List Char)
  | [] => []
  | item :: items => renderAt depth item :: renderItems depth items

def renderMembers (depth : Nat) : List (String × Json) → List (List Char)
  | [] => []
  | (name, value) :: members =>
    (renderString name ++ ':' :: ' ' :: renderAt depth value) :: renderMembers depth members

end

def render (j : Json) : String := String.ofList (renderAt 0 j)

def strings (ss : List String) : Json := array (ss.map string)

end Json

end TreeDatabase
