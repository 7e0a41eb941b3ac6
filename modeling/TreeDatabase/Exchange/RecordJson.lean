import TreeDatabase.Json
import TreeDatabase.Store.Records
import TreeDatabase.Text.Blank

/-!
# Records as JSON

A list of records is an array of objects with a path and a value. The reader takes the members of
an object in any order and passes over members of other names; a record may also be an array of a
path and a value.
-/

namespace TreeDatabase

def Record.toJson (r : Record) : Json :=
  .object [("path", .string r.path), ("value", .string r.value)]

namespace RecordJson

def render (rs : List Record) : String := (Json.array (rs.map Record.toJson)).render

/-! ### Strings -/

def isBlank (c : Char) : Bool := c == ' ' || c == '\t' || c == '\n' || c == '\r'

def skipBlanks (cs : List Char) : List Char := cs.dropWhile isBlank

/-- The number that four hexadecimal digits make, and what follows them. -/
def readHex4 : List Char → Option (Nat × List Char)
  | a :: b :: c :: d :: rest => (Number.readHex? [a, b, c, d]).map (·, rest)
  | _ => none

def letterEscape? : Char → Option Char
  | '"' => some '"'
  | '\\' => some '\\'
  | '/' => some '/'
  | 'b' => some '\x08'
  | 'f' => some '\x0c'
  | 'n' => some '\n'
  | 'r' => some '\r'
  | 't' => some '\t'
  | _ => none

def isHighSurrogate (n : Nat) : Bool := 0xd800 ≤ n && n ≤ 0xdbff
def isLowSurrogate (n : Nat) : Bool := 0xdc00 ≤ n && n ≤ 0xdfff

def ofSurrogates (high low : Nat) : Char :=
  Char.ofNat (0x10000 + (high - 0xd800) * 0x400 + (low - 0xdc00))

/-- The second half of a pair of code units, as an escape of its own, and what follows it. -/
def readLowSurrogate : List Char → Option (Nat × List Char)
  | '\\' :: 'u' :: rest => (readHex4 rest).filter fun p => isLowSurrogate p.1
  | _ => none

/-- The character of an escape by code units, of which a pair makes one character. Half a pair
makes none. -/
def readUnits (cs : List Char) : Option (Char × List Char) := do
  let (n, rest) ← readHex4 cs
  if isLowSurrogate n then none
  else if isHighSurrogate n then
    (readLowSurrogate rest).map fun (m, rest) => (ofSurrogates n m, rest)
  else return (Char.ofNat n, rest)

def readChar (c : Char) (cs : List Char) : Option (Char × List Char) :=
  if c = '\\' then
    match cs with
    | 'u' :: rest => readUnits rest
    | e :: rest => (letterEscape? e).map (·, rest)
    | [] => none
  else if c.toNat < 0x20 then none
  else some (c, cs)

/-- One character inside a string that is passed over, where half a pair of code units will do. -/
def skipChar (c : Char) (cs : List Char) : Option (List Char) :=
  if c = '\\' then
    match cs with
    | 'u' :: rest => (readHex4 rest).map Prod.snd
    | e :: rest => (letterEscape? e).map fun _ => rest
    | [] => none
  else if c.toNat < 0x20 then none
  else some cs

theorem length_readHex4 {cs rest : List Char} {n : Nat} (h : readHex4 cs = some (n, rest)) :
    rest.length < cs.length := by
  unfold readHex4 at h
  split at h
  · obtain ⟨_, _, h⟩ := Option.map_eq_some_iff.mp h
    cases h
    simp
    omega
  · cases h

theorem length_readLowSurrogate {cs rest : List Char} {n : Nat}
    (h : readLowSurrogate cs = some (n, rest)) : rest.length < cs.length := by
  unfold readLowSurrogate at h
  split at h
  · have := length_readHex4 (Option.eq_some_of_filter_eq_some h)
    simp only [List.length_cons]
    omega
  · cases h

theorem length_readUnits {cs rest : List Char} {c : Char} (h : readUnits cs = some (c, rest)) :
    rest.length < cs.length := by
  unfold readUnits at h
  simp only [Option.bind_eq_bind, Option.bind_eq_some_iff] at h
  obtain ⟨⟨n, r⟩, hr, h⟩ := h
  have hlt := length_readHex4 hr
  split at h
  · cases h
  · split at h
    · obtain ⟨⟨m, r'⟩, hr', h⟩ := Option.map_eq_some_iff.mp h
      obtain ⟨-, rfl⟩ := Prod.mk.inj h
      exact Nat.lt_trans (length_readLowSurrogate hr') hlt
    · cases h
      exact hlt

theorem length_readChar {c d : Char} {cs rest : List Char} (h : readChar c cs = some (d, rest)) :
    rest.length ≤ cs.length := by
  unfold readChar at h
  split at h
  · split at h
    · exact Nat.le_succ_of_le (Nat.le_of_lt (length_readUnits h))
    · obtain ⟨_, _, h⟩ := Option.map_eq_some_iff.mp h
      cases h
      simp
    · cases h
  · split at h
    · cases h
    · cases h
      exact Nat.le_refl _

theorem length_skipChar {c : Char} {cs rest : List Char} (h : skipChar c cs = some rest) :
    rest.length ≤ cs.length := by
  unfold skipChar at h
  split at h
  · split at h
    · obtain ⟨⟨_, _⟩, hr, h⟩ := Option.map_eq_some_iff.mp h
      have := length_readHex4 hr
      simp_all
      omega
    · obtain ⟨_, _, h⟩ := Option.map_eq_some_iff.mp h
      cases h
      simp
    · cases h
  · split at h
    · cases h
    · cases h
      exact Nat.le_refl _

/-- The characters up to the closing quote, and what follows it. -/
def readStringRest (cs : List Char) : Option (List Char × List Char) :=
  match cs with
  | [] => none
  | '"' :: rest => some ([], rest)
  | c :: rest =>
    match h : readChar c rest with
    | none => none
    | some (d, after) =>
      have := length_readChar h
      (readStringRest after).map fun (ds, after) => (d :: ds, after)
termination_by cs.length
decreasing_by simp; omega

def skipStringRest (cs : List Char) : Option (List Char) :=
  match cs with
  | [] => none
  | '"' :: rest => some rest
  | c :: rest =>
    match h : skipChar c rest with
    | none => none
    | some after =>
      have := length_skipChar h
      skipStringRest after
termination_by cs.length
decreasing_by simp; omega

def readString : List Char → Option (String × List Char)
  | '"' :: rest => (readStringRest rest).map fun (ds, after) => (String.ofList ds, after)
  | _ => none

/-! ### Values that are passed over -/

def skipDigits (cs : List Char) : Option (List Char) :=
  match cs with
  | c :: rest => if c.isDigit then some (rest.dropWhile Char.isDigit) else none
  | [] => none

/-- What follows the whole part of a number, which begins with zero only when it is zero. -/
def skipWhole : List Char → Option (List Char)
  | '0' :: rest => if rest.head?.any Char.isDigit then none else some rest
  | cs => skipDigits cs

def skipFraction : List Char → Option (List Char)
  | '.' :: rest => skipDigits rest
  | cs => some cs

def skipExponent : List Char → Option (List Char)
  | c :: rest =>
    if c = 'e' ∨ c = 'E' then
      match rest with
      | '+' :: rest => skipDigits rest
      | '-' :: rest => skipDigits rest
      | _ => skipDigits rest
    else some (c :: rest)
  | [] => some []

def skipNumber (cs : List Char) : Option (List Char) := do
  let unsigned := match cs with
    | '-' :: rest => rest
    | _ => cs
  skipExponent (← skipFraction (← skipWhole unsigned))

def skipWord (word cs : List Char) : Option (List Char) :=
  if word.isPrefixOf cs then some (cs.drop word.length) else none

mutual

/-- What follows a value of any kind. Twice the number of characters is fuel enough. -/
def skipValue : (fuel : Nat) → List Char → Option (List Char)
  | 0, _ => none
  | fuel + 1, cs =>
    match skipBlanks cs with
    | '"' :: rest => skipStringRest rest
    | '[' :: rest =>
      match skipBlanks rest with
      | ']' :: after => some after
      | _ => skipItems fuel rest
    | '\x7b' :: rest =>
      match skipBlanks rest with
      | '\x7d' :: after => some after
      | _ => skipMembers fuel rest
    | 't' :: rest => skipWord "rue".toList rest
    | 'f' :: rest => skipWord "alse".toList rest
    | 'n' :: rest => skipWord "ull".toList rest
    | rest => skipNumber rest

/-- What follows the items of an array, at least one, and the closing bracket. -/
def skipItems : (fuel : Nat) → List Char → Option (List Char)
  | 0, _ => none
  | fuel + 1, cs => do
    match skipBlanks (← skipValue fuel cs) with
    | ',' :: rest => skipItems fuel rest
    | ']' :: rest => some rest
    | _ => none

/-- What follows the members of an object, at least one, and the closing brace. -/
def skipMembers : (fuel : Nat) → List Char → Option (List Char)
  | 0, _ => none
  | fuel + 1, cs =>
    match skipBlanks cs with
    | '"' :: rest => do
      match skipBlanks (← skipStringRest rest) with
      | ':' :: rest =>
        match skipBlanks (← skipValue fuel rest) with
        | ',' :: rest => skipMembers fuel rest
        | '\x7d' :: rest => some rest
        | _ => none
      | _ => none
    | _ => none

end

/-! ### Records -/

structure Partial where
  path : Option String := none
  value : Option String := none

def Partial.complete? (p : Partial) : Option Record := do
  return ⟨← p.path, ← p.value⟩

/-- A record with one more member, which may not be given twice. -/
def Partial.set? (p : Partial) (name text : String) : Option Partial :=
  if name = "path" then if p.path.isNone then some { p with path := text } else none
  else if p.value.isNone then some { p with value := text } else none

/-- Reads what follows the name of a member: its text, when the record has a member of that
name. -/
def readMember (p : Partial) (name : String) (cs : List Char) : Option (Partial × List Char) :=
  if name = "path" ∨ name = "value" then do
    let (text, rest) ← readString (skipBlanks cs)
    return (← p.set? name text, rest)
  else (skipValue (2 * cs.length) cs).map (p, ·)

/-- Reads the members of an object, at least one, and the closing brace. -/
def readMembers : (fuel : Nat) → Partial → List Char → Option (Record × List Char)
  | 0, _, _ => none
  | fuel + 1, p, cs => do
    let (name, rest) ← readString (skipBlanks cs)
    match skipBlanks rest with
    | ':' :: rest =>
      let (p, rest) ← readMember p name rest
      match skipBlanks rest with
      | ',' :: rest => readMembers fuel p rest
      | '\x7d' :: rest => return (← p.complete?, rest)
      | _ => none
    | _ => none

/-- Reads the rest of a record that is an array: a path, a value and the closing bracket. -/
def readPair (cs : List Char) : Option (Record × List Char) := do
  let (path, rest) ← readString (skipBlanks cs)
  match skipBlanks rest with
  | ',' :: rest =>
    let (value, rest) ← readString (skipBlanks rest)
    match skipBlanks rest with
    | ']' :: rest => return (⟨path, value⟩, rest)
    | _ => none
  | _ => none

def readRecord (cs : List Char) : Option (Record × List Char) :=
  match skipBlanks cs with
  | '\x7b' :: rest => readMembers rest.length {} rest
  | '[' :: rest => readPair rest
  | _ => none

/-- Reads the records of an array, at least one, and the closing bracket. -/
def readItems : (fuel : Nat) → List Char → Option (List Record × List Char)
  | 0, _ => none
  | fuel + 1, cs => do
    let (r, rest) ← readRecord cs
    match skipBlanks rest with
    | ',' :: rest =>
      let (rs, rest) ← readItems fuel rest
      return (r :: rs, rest)
    | ']' :: rest => return ([r], rest)
    | _ => none

def readRecords (cs : List Char) : Option (List Record × List Char) :=
  match skipBlanks cs with
  | '[' :: rest =>
    match skipBlanks rest with
    | ']' :: after => some ([], after)
    | _ => readItems rest.length rest
  | _ => none

def parse? (text : String) : Option (List Record) := do
  let (rs, rest) ← readRecords text.toList
  if skipBlanks rest = [] then some rs else none

end RecordJson

end TreeDatabase
