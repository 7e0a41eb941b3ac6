import TreeDatabase.Toml.Scalar
import TreeDatabase.Toml.Text

/-!
# TOML documents

A document assigns values to dotted keys, below headers that open tables and arrays of tables. It
is read into the list of its definitions. Of values only strings are kept; a document in which a
key is defined twice, or extends what cannot be extended, is refused.
-/

namespace TreeDatabase.Toml

/-- One step of the path of a definition: a key, or an item of an array of tables. -/
inductive Step where
  | key (name : String)
  | item (index : Nat)
  deriving DecidableEq, Repr

inductive Definition where
  /-- A value, with its text when it is a string. -/
  | value (text : Option String)
  /-- A table that a longer header implies. -/
  | impliedTable
  /-- A table with a header of its own. -/
  | table
  /-- A table that a dotted key implies. -/
  | dottedTable
  /-- An array of tables, by the index of its last item. -/
  | tables (last : Nat)
  deriving DecidableEq, Repr

/-- The definitions of a document, the latest first. -/
abbrev Document := List (List Step × Definition)

namespace Document

/-- Goes down along keys, defining the tables that are missing. A dotted key goes through no table
that has a header. -/
def descend (dotted : Bool) (d : Document) (path : List Step) :
    List String → Option (Document × List Step)
  | [] => some (d, path)
  | name :: names =>
    let next := path ++ [.key name]
    match d.lookup next with
    | none =>
      descend dotted ((next, if dotted then .dottedTable else .impliedTable) :: d) next names
    | some (.value _) => none
    | some (.tables last) => descend dotted d (next ++ [.item last]) names
    | some .table => if dotted then none else descend dotted d next names
    | some _ => descend dotted d next names

def openTable (d : Document) (keys : List String) : Option (Document × List Step) := do
  let (d, path) ← descend false d [] keys.dropLast
  let path := path ++ [.key (keys.getLast?.getD "")]
  match d.lookup path with
  | none => return ((path, .table) :: d, path)
  | some .impliedTable => return ((path, .table) :: d, path)
  | some _ => none

def openItem (d : Document) (keys : List String) : Option (Document × List Step) := do
  let (d, path) ← descend false d [] keys.dropLast
  let path := path ++ [.key (keys.getLast?.getD "")]
  let index ← match d.lookup path with
    | none => some 0
    | some (.tables last) => some (last + 1)
    | some _ => none
  let item := path ++ [.item index]
  return ((item, .table) :: (path, .tables index) :: d, item)

/-- Assigns a value to a dotted key below a table. A table is extended by dotted keys only if
dotted keys have made it. -/
def assign (d : Document) (table : List Step) (keys : List String) (text : Option String) :
    Option Document := do
  let (d, path) ← descend true d table keys.dropLast
  let isDotted := d.lookup path = some .dottedTable
  if isDotted = (keys.dropLast = []) then none
  else
    let path := path ++ [.key (keys.getLast?.getD "")]
    if (d.lookup path).isSome then none else return (path, .value text) :: d

end Document

/-! ### Reading -/

def isBareKeyChar (c : Char) : Bool := c.isAlphanum || c == '-' || c == '_'

def readSimpleKey (cs : List Char) : Option (String × List Char) :=
  match cs with
  | '"' :: _ => readLineString cs
  | '\'' :: _ => readLineString cs
  | _ =>
    let name := cs.takeWhile isBareKeyChar
    if name = [] then none else some (String.ofList name, cs.dropWhile isBareKeyChar)

/-- The parts of a dotted key with blanks around them, and what follows. -/
def readKeyParts : (fuel : Nat) → List Char → Option (List String × List Char)
  | 0, _ => none
  | fuel + 1, cs => do
    let (name, rest) ← readSimpleKey (skipBlanks cs)
    match skipBlanks rest with
    | '.' :: rest =>
      let (names, rest) ← readKeyParts fuel rest
      return (name :: names, rest)
    | rest => return ([name], rest)

/-- Values nest less deep than this, and dotted keys have fewer parts. -/
def maxDepth : Nat := 80

def readKey (cs : List Char) : Option (List String × List Char) :=
  (readKeyParts cs.length cs).filter fun (names, _) => names.length < maxDepth

def skipComment : List Char → List Char
  | '#' :: rest => rest.dropWhile isLineChar
  | cs => cs

def skipLines : (fuel : Nat) → List Char → List Char
  | 0, cs => cs
  | fuel + 1, cs =>
    let rest := skipComment (skipBlanks cs)
    match lineBreak? rest with
    | some after => skipLines fuel after
    | none => rest

mutual

/-- A value at a depth of nesting: its text, if it is a string, and what follows it. Twice the
number of characters and two more is fuel enough. -/
def readValue (depth : Nat) : (fuel : Nat) → List Char → Option (Option String × List Char)
  | 0, _ => none
  | fuel + 1, cs =>
    match cs with
    | '"' :: _ => (readString cs).map fun (text, rest) => (some text, rest)
    | '\'' :: _ => (readString cs).map fun (text, rest) => (some text, rest)
    | '[' :: rest =>
      if maxDepth ≤ depth + 1 then none else (skipItems (depth + 1) fuel rest).map (none, ·)
    | '\x7b' :: rest =>
      if maxDepth ≤ depth + 1 then none
      else
        match skipBlanks rest with
        | '\x7d' :: after => some (none, after)
        | _ => (skipMembers (depth + 1) fuel [] rest).map (none, ·)
    | _ => (skipScalar cs).map (none, ·)

/-- What follows the items of an array and the closing bracket. -/
def skipItems (depth : Nat) : (fuel : Nat) → List Char → Option (List Char)
  | 0, _ => none
  | fuel + 1, cs =>
    match skipLines cs.length cs with
    | ']' :: rest => some rest
    | start => do
      let (_, rest) ← readValue depth fuel start
      match skipLines rest.length rest with
      | ',' :: rest => skipItems depth fuel rest
      | ']' :: rest => some rest
      | _ => none

/-- What follows the members of an inline table, at least one, and the closing brace. -/
def skipMembers (depth : Nat) : (fuel : Nat) → Document → List Char → Option (List Char)
  | 0, _, _ => none
  | fuel + 1, d, cs => do
    let (keys, rest) ← readKey cs
    match rest with
    | '=' :: rest =>
      let (_, rest) ← readValue depth fuel (skipBlanks rest)
      let d ← d.assign [] keys none
      match skipBlanks rest with
      | ',' :: rest => skipMembers depth fuel d rest
      | '\x7d' :: rest => some rest
      | _ => none
    | _ => none

end

def lineEnd? (cs : List Char) : Option (List Char) :=
  match skipComment (skipBlanks cs) with
  | [] => some []
  | rest => lineBreak? rest

/-- The lines of a document: the definitions so far, the open table and the rest of the text. -/
def readLines : (fuel : Nat) → Document → (table : List Step) → List Char → Option Document
  | _, d, _, [] => some d
  | 0, _, _, _ :: _ => none
  | fuel + 1, d, table, cs =>
    match skipBlanks cs with
    | '[' :: '[' :: rest => do
      let (keys, rest) ← readKey rest
      match rest with
      | ']' :: ']' :: rest =>
        let (d, table) ← d.openItem keys
        readLines fuel d table (← lineEnd? rest)
      | _ => none
    | '[' :: rest => do
      let (keys, rest) ← readKey rest
      match rest with
      | ']' :: rest =>
        let (d, table) ← d.openTable keys
        readLines fuel d table (← lineEnd? rest)
      | _ => none
    | start =>
      match lineEnd? start with
      | some rest => readLines fuel d table rest
      | none => do
        let (keys, rest) ← readKey start
        match rest with
        | '=' :: rest =>
          let (text, rest) ← readValue 0 (2 * rest.length + 2) (skipBlanks rest)
          readLines fuel (← d.assign table keys text) table (← lineEnd? rest)
        | _ => none

/-- A byte order mark at the start does not count. -/
def dropMark : List Char → List Char
  | '\ufeff' :: rest => rest
  | cs => cs

def parse? (text : String) : Option Document :=
  let cs := dropMark text.toList
  readLines cs.length [] [] cs

end TreeDatabase.Toml
