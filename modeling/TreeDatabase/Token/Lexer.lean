import TreeDatabase.Number.Natural
import TreeDatabase.Text.Quoted
import TreeDatabase.Text.Split
import TreeDatabase.Token

/-!
# Reading tokens

`tokenize` reads the tokens of a statement from left to right. Quoted texts and times of day are
whole tokens, so that what they contain never divides a statement. A statement in which the
parentheses of its words do not balance, or with more than one colon outside quotes and times, is
refused.
-/

namespace TreeDatabase

inductive LexFault where
  | unterminatedQuote (quote : Char) (offset : Nat)
  | lineBreakInQuote (offset : Nat)
  | illegalCharacter (character : Char) (offset : Nat)
  | unbalancedParentheses
  | extraColon
  deriving DecidableEq, Repr

def LexFault.message : LexFault → String
  | unterminatedQuote quote offset =>
    "Unterminated " ++ String.singleton quote ++ " quote at offset " ++ Number.numeral offset
  | lineBreakInQuote offset => "Line break inside quoted text at offset " ++ Number.numeral offset
  | illegalCharacter c offset =>
    "Illegal character " ++ Text.quotedSingle c ++ " at offset " ++ Number.numeral offset
  | unbalancedParentheses => "Unbalanced parentheses"
  | extraColon => "More than one colon outside quotes"

namespace Token

def isWordChar (c : Char) : Bool := c.isAlphanum || "-+;_()/\\".toList.contains c

def isLineBreak (c : Char) : Bool := c == '\n' || c == '\r'

def isQuote (c : Char) : Bool := c == '"' || c == '\''

def ofPunctuation? : Char → Option Token
  | '.' => some dot
  | ':' => some colon
  | '=' => some equals
  | ',' => some comma
  | _ => none

/-- The time of day at the start of a text and what follows it: three pairs of digits with colons
between them. -/
def timeAhead? : List Char → Option (List Char × List Char)
  | a :: b :: ':' :: c :: d :: ':' :: e :: f :: rest =>
    if [a, b, c, d, e, f].all Char.isDigit then some ([a, b, ':', c, d, ':', e, f], rest) else none
  | _ => none

/-- The token that a run of word characters is, when `ordinal` keywords came before it. -/
def ofRun (ordinal : Nat) (run : List Char) : Token :=
  match Generator.ofWord? (String.ofList run) with
  | some g => keyword g (String.ofList run) ordinal
  | none => word (String.ofList run)

def nextOrdinal (ordinal : Nat) : Token → Nat
  | keyword _ _ _ => ordinal + 1
  | _ => ordinal

/-- One step of reading: the token at the start of a text that is not empty, and what follows. The
text is the end of a statement of `total` characters, which places the faults. -/
def next (total ordinal : Nat) (c : Char) (cs : List Char) :
    Except LexFault (Token × List Char) :=
  if Text.isBlank c then .ok (space, cs.dropWhile Text.isBlank)
  else if isQuote c then
    match Text.cutAt (· == c) cs with
    | (_, none) => .error (.unterminatedQuote c (total - (cs.length + 1)))
    | (inside, some rest) =>
      match inside.findIdx? isLineBreak with
      | some i => .error (.lineBreakInQuote (total - cs.length + i))
      | none => .ok (quoted (String.ofList inside) c, rest)
  else
    match ofPunctuation? c with
    | some t => .ok (t, cs)
    | none =>
      if isWordChar c then
        match timeAhead? (c :: cs) with
        | some (digits, rest) => .ok (time (String.ofList digits), rest)
        | none => .ok (ofRun ordinal (c :: cs.takeWhile isWordChar), cs.dropWhile isWordChar)
      else .error (.illegalCharacter c (total - (cs.length + 1)))

theorem length_cutAt_le {α : Type} {sep : α → Bool} {as rest : List α}
    (h : (Text.cutAt sep as).2 = some rest) : rest.length < as.length := by
  induction as with
  | nil => simp [Text.cutAt] at h
  | cons a as ih =>
    rw [Text.cutAt] at h
    split at h
    · cases h; simp
    · exact Nat.lt_succ_of_lt (ih h)

theorem length_timeAhead? {cs digits rest : List Char}
    (h : timeAhead? cs = some (digits, rest)) : rest.length < cs.length := by
  unfold timeAhead? at h
  split at h
  · split at h
    · cases h; simp; omega
    · cases h
  · cases h

/-- Each step reads at least one character. -/
theorem length_next {total ordinal : Nat} {c : Char} {cs rest : List Char} {t : Token}
    (h : next total ordinal c cs = .ok (t, rest)) : rest.length < (c :: cs).length := by
  rw [next] at h
  have hd (p : Char → Bool) : (cs.dropWhile p).length < (c :: cs).length :=
    Nat.lt_succ_of_le (List.dropWhile_sublist p).length_le
  split at h
  · cases h; exact hd _
  · split at h
    · split at h
      · cases h
      · next inside rest' hcut =>
        split at h
        · cases h
        · cases h
          exact Nat.lt_succ_of_lt (length_cutAt_le (by rw [hcut]))
    · split at h
      · cases h; simp
      · split at h
        · split at h
          · next ht => cases h; exact length_timeAhead? ht
          · cases h; exact hd _
        · cases h

/-- Reads the tokens of the end of a statement of `total` characters, after `ordinal` keywords. -/
def scan (total ordinal : Nat) (cs : List Char) : Except LexFault (List Token) :=
  match cs with
  | [] => .ok []
  | c :: rest =>
    match h : next total ordinal c rest with
    | .error fault => .error fault
    | .ok (t, after) =>
      have := length_next h
      (scan total (nextOrdinal ordinal t) after).map (t :: ·)
termination_by cs.length
decreasing_by assumption

/-- How often a character occurs in the words of a statement. -/
def countInWords (c : Char) (ts : List Token) : Nat :=
  Number.total (ts.map fun t =>
    match t with
    | word w => w.toList.count c
    | _ => 0)

def tokenize (s : String) : Except LexFault (List Token) :=
  match scan s.length 0 s.toList with
  | .error fault => .error fault
  | .ok ts =>
    if countInWords '(' ts ≠ countInWords ')' ts then .error .unbalancedParentheses
    else if 1 < ts.count colon then .error .extraColon
    else .ok ts

end Token

end TreeDatabase
