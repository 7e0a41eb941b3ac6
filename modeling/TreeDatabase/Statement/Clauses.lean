import TreeDatabase.RepeatCount
import TreeDatabase.Text.Split
import TreeDatabase.Token
import TreeDatabase.Vocabulary

/-!
# Clauses of a statement

The tokens of a statement are divided into a verb, an argument, a condition and a number of
repetitions, before any of them is interpreted.
-/

namespace TreeDatabase

open Token

structure Clauses where
  verb : Verb
  argument : List Token
  /-- The tokens after the word that introduces a condition. -/
  condition : Option (List Token)
  deriving DecidableEq, Repr

namespace Clauses

def isRepetition (t : Token) : Bool := t.isWord Vocabulary.repetition

/-- Whether a token is the word that introduces a condition, in any letter case. -/
def isCondition : Token → Bool
  | word w => Text.equalsIgnoringCase w Vocabulary.condition
  | _ => false

/-- The number of repetitions, from the tokens before the word for repetition and after it. -/
def repetitions (before after : List Token) : Except RepeatFault Nat :=
  match before.getLast?, trimSpaces after with
  | some space, [word digits] => readRepeatCount digits
  | _, _ => .error .countMissing

/-- Takes the repetition off the end of a statement. Without one it is executed once. -/
def takeRepetitions (ts : List Token) : Except RepeatFault (List Token × Nat) :=
  match ts.countP isRepetition with
  | 0 => .ok (ts, 1)
  | 1 =>
    let parts := Text.cutAt isRepetition ts
    (repetitions parts.1 (parts.2.getD [])).map (trimSpaces parts.1, ·)
  | _ => .error .keywordRepeated

/-- The clauses of a statement without repetition: none when it does not begin with a verb that
stands for itself. -/
def ofTokens? (ts : List Token) : Option Clauses :=
  match trimSpaces ts with
  | word w :: rest =>
    if rest.head?.all isSpace then
      (Verb.ofPhrase? w).map fun verb =>
        let arguments := trimSpaces rest
        if verb.isBare then ⟨verb, arguments, none⟩
        else
          let parts := Text.cutAt isCondition arguments
          ⟨verb, trimSpaces parts.1, parts.2.map trimSpaces⟩
    else none
  | _ => none

end Clauses

end TreeDatabase
