import TreeDatabase.Number.Natural

/-!
# Numbers of repetitions

A statement may be repeated from 1 to 9,999,999 times.
-/

namespace TreeDatabase

open Number

/-- What can be wrong with the repetition of a statement. -/
inductive RepeatFault where
  | tooLarge
  | zero
  | keywordRepeated
  | countMissing
  | invalid (raw : String)
  deriving DecidableEq, Repr

def maxRepeatCount : Nat := 9999999

def RepeatFault.message : RepeatFault → String
  | tooLarge => "Only " ++ grouped maxRepeatCount ++ " iterations are allowed."
  | zero => "The Times keyword requires at least 1 iteration."
  | keywordRepeated => "The Times keyword can only be used once in a statement."
  | countMissing =>
    "The Times keyword must end the statement and be followed by a number of iterations."
  | invalid raw => "Invalid number of iterations: " ++ raw ++ "."

/-- Reads a number of repetitions. Digits are too many from the twentieth on, whatever their
value; a numeral may have a plus sign. -/
def readRepeatCount (raw : String) : Except RepeatFault Nat :=
  let cs := raw.toList
  if cs.all Char.isDigit ∧ 19 < cs.length then .error .tooLarge
  else
    match readNatural? maxUInt64 cs with
    | none => .error (.invalid raw)
    | some 0 => .error .zero
    | some n => if maxRepeatCount < n then .error .tooLarge else .ok n

end TreeDatabase
