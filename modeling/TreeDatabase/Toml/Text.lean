import TreeDatabase.Number.Hexadecimal
import TreeDatabase.Text.Trim

/-!
# Strings in TOML

Strings stand in double quotes with escapes or in single quotes without. Tripled quotes hold
strings of several lines. `writeString` chooses the quotes: double ones when nothing has to be
escaped, then single ones, then the forms for several lines, and escapes only when it must.
-/

namespace TreeDatabase.Toml

/-! ### Lines -/

def isBlank (c : Char) : Bool := c == ' ' || c == '\t'

def skipBlanks (cs : List Char) : List Char := cs.dropWhile isBlank

/-- Whether a character may stand in a line: a tab, or no control character. -/
def isLineChar (c : Char) : Bool := c == '\t' || (0x20 ≤ c.toNat && c.toNat ≠ 0x7f)

def lineBreak? : List Char → Option (List Char)
  | '\n' :: rest => some rest
  | '\r' :: '\n' :: rest => some rest
  | _ => none

/-! ### Reading -/

/-- The character of so many hexadecimal digits, which must make a code point of a character. -/
def readCodePoint? (digits : Nat) (cs : List Char) : Option (Char × List Char) :=
  if cs.length < digits then none
  else
    (Number.readHex? (cs.take digits)).bind fun n =>
      if n < 0xd800 ∨ (0xdfff < n ∧ n < 0x110000) then some (Char.ofNat n, cs.drop digits)
      else none

/-- The character of an escape whose letter is given, and what follows the escape. -/
def readEscape? (letter : Char) (cs : List Char) : Option (Char × List Char) :=
  match letter with
  | 'b' => some ('\x08', cs)
  | 't' => some ('\t', cs)
  | 'n' => some ('\n', cs)
  | 'f' => some ('\x0c', cs)
  | 'r' => some ('\r', cs)
  | '"' => some ('"', cs)
  | '\\' => some ('\\', cs)
  | 'u' => readCodePoint? 4 cs
  | 'U' => readCodePoint? 8 cs
  | _ => none

/-- The rest of a string in double quotes, and what follows it. -/
def readBasic : (fuel : Nat) → List Char → Option (List Char × List Char)
  | 0, _ => none
  | fuel + 1, cs =>
    match cs with
    | '"' :: rest => some ([], rest)
    | '\\' :: letter :: rest => do
      let (c, rest) ← readEscape? letter rest
      let (text, rest) ← readBasic fuel rest
      return (c :: text, rest)
    | c :: rest =>
      if isLineChar c ∧ c ≠ '\\' then do
        let (text, rest) ← readBasic fuel rest
        return (c :: text, rest)
      else none
    | [] => none

/-- The rest of a string in single quotes, and what follows it. -/
def readLiteral : List Char → Option (List Char × List Char)
  | [] => none
  | c :: rest =>
    if c = '\'' then some ([], rest)
    else if isLineChar c then (readLiteral rest).map fun (text, rest) => (c :: text, rest)
    else none

/-- The quotes that belong to a string of several lines although they stand right before its
closing quotes, at most two, and what follows the string. -/
def closeTripled (quote : Char) (cs : List Char) : List Char × List Char :=
  let extra := (cs.takeWhile (· = quote)).take 2
  (extra, cs.drop extra.length)

def skipWhite : (fuel : Nat) → List Char → List Char
  | 0, cs => cs
  | fuel + 1, cs =>
    match lineBreak? (skipBlanks cs) with
    | some rest => skipWhite fuel rest
    | none => skipBlanks cs

/-- The rest of a string in tripled double quotes. A backslash at the end of a line takes the line
break away, with all blanks and line breaks after it. -/
def readTripledBasic : (fuel : Nat) → List Char → Option (List Char × List Char)
  | 0, _ => none
  | fuel + 1, cs =>
    match cs with
    | '"' :: '"' :: '"' :: rest => some (closeTripled '"' rest)
    | '\\' :: rest =>
      match lineBreak? (skipBlanks rest), rest with
      | some after, _ => readTripledBasic fuel (skipWhite after.length after)
      | none, letter :: rest => do
        let (c, rest) ← readEscape? letter rest
        let (text, rest) ← readTripledBasic fuel rest
        return (c :: text, rest)
      | none, [] => none
    | c :: rest =>
      match lineBreak? cs with
      | some after => (readTripledBasic fuel after).map fun (text, rest) => ('\n' :: text, rest)
      | none =>
        if isLineChar c then
          (readTripledBasic fuel rest).map fun (text, rest) => (c :: text, rest)
        else none
    | [] => none

def readTripledLiteral : (fuel : Nat) → List Char → Option (List Char × List Char)
  | 0, _ => none
  | fuel + 1, cs =>
    match cs with
    | '\'' :: '\'' :: '\'' :: rest => some (closeTripled '\'' rest)
    | c :: rest =>
      match lineBreak? cs with
      | some after => (readTripledLiteral fuel after).map fun (text, rest) => ('\n' :: text, rest)
      | none =>
        if isLineChar c then
          (readTripledLiteral fuel rest).map fun (text, rest) => (c :: text, rest)
        else none
    | [] => none

/-- A line break right after opening quotes does not belong to the string. -/
def afterOpening (cs : List Char) : List Char := (lineBreak? cs).getD cs

def readLineString (cs : List Char) : Option (String × List Char) :=
  let read := match cs with
    | '"' :: rest => readBasic cs.length rest
    | '\'' :: rest => readLiteral rest
    | _ => none
  read.map fun (text, rest) => (String.ofList text, rest)

/-- A string of one or several lines, and what follows it. -/
def readString (cs : List Char) : Option (String × List Char) :=
  let tripled (read : Option (List Char × List Char)) : Option (String × List Char) :=
    read.map fun (text, rest) => (String.ofList text, rest)
  match cs with
  | '"' :: '"' :: '"' :: rest => tripled (readTripledBasic cs.length (afterOpening rest))
  | '\'' :: '\'' :: '\'' :: rest => tripled (readTripledLiteral cs.length (afterOpening rest))
  | _ => readLineString cs

/-! ### Writing -/

/-- Whether a character cannot stand in a string but by an escape. -/
def needsEscape (c : Char) : Bool :=
  (c.toNat < 0x20 && c != '\t' && c != '\n') || c.toNat == 0x7f

def longestRun (c : Char) : List Char → Nat → Nat → Nat
  | [], _, longest => longest
  | d :: ds, current, longest =>
    if d = c then longestRun c ds (current + 1) (max longest (current + 1))
    else longestRun c ds 0 longest

def runOf (c : Char) (cs : List Char) : Nat := longestRun c cs 0 0

def codePointEscape (c : Char) : List Char :=
  let digits := (Number.hexDigits c.toNat).map Char.toUpper
  ['\\', 'u'] ++ List.replicate (4 - digits.length) '0' ++ digits

/-- How a character is written between double quotes, where a line break and up to `allowed` quotes
in a row may stand in the forms for several lines; `quotes` of them came just before. -/
def writeChars (lines : Bool) (allowed : Nat) : (quotes : Nat) → List Char → List Char
  | _, [] => []
  | quotes, c :: cs =>
    if c = '"' then
      if quotes < allowed then '"' :: writeChars lines allowed (quotes + 1) cs
      else '\\' :: '"' :: writeChars lines allowed 0 cs
    else
      (match c with
        | '\x08' => ['\\', 'b']
        | '\t' => ['\\', 't']
        | '\n' => if lines then ['\n'] else ['\\', 'n']
        | '\x0c' => ['\\', 'f']
        | '\r' => ['\\', 'r']
        | '\\' => ['\\', '\\']
        | _ => if needsEscape c then codePointEscape c else [c]) ++ writeChars lines allowed 0 cs

def enclose (quotes : String) (lines : Bool) (text : List Char) : List Char :=
  quotes.toList ++ (if lines then ['\n'] else []) ++ text ++ quotes.toList

def writeString (s : String) : String :=
  let cs := s.toList
  let coded := cs.any needsEscape
  let lines := cs.contains '\n'
  let bare := !coded && !cs.contains '\\'
  String.ofList <|
    if bare && runOf '"' cs = 0 && !lines then enclose "\"" false (writeChars false 0 0 cs)
    else if !coded && runOf '\'' cs = 0 && !lines then enclose "'" false cs
    else if bare && runOf '"' cs ≤ 2 then enclose "\"\"\"" lines (writeChars true 2 0 cs)
    else if !coded && runOf '\'' cs ≤ 2 then enclose "'''" lines cs
    else if lines then enclose "\"\"\"" true (writeChars true 2 0 cs)
    else enclose "\"" false (writeChars false 0 0 cs)

end TreeDatabase.Toml
