import TreeDatabase.Number.Natural
import TreeDatabase.Number.Rounding

/-!
# Decimal values

A decimal is a numeral with an optional sign, fraction and exponent, rounded to 53 binary digits,
or one of the words for infinity and for "not a number". Order is that of the rounded numbers; not
a number is comparable with nothing.
-/

namespace TreeDatabase.Number

/-- A decimal value. Finite ones are counted in steps of two to the power -1074. -/
inductive Decimal where
  | finite (steps : Int)
  | infinite (negative : Bool)
  | notANumber
  deriving DecidableEq, Repr

namespace Decimal

/-- The order of two values: none when one of them is not a number. -/
def compare : Decimal → Decimal → Option Ordering
  | notANumber, _ => none
  | _, notANumber => none
  | finite a, finite b => some (Ord.compare a b)
  | finite _, infinite negative => some (if negative then .gt else .lt)
  | infinite negative, finite _ => some (if negative then .lt else .gt)
  | infinite a, infinite b => some (if a = b then .eq else if a then .lt else .gt)

/-- The parts of an unsigned numeral: the digits without the point, and the power of ten that
multiplies them. -/
structure Numeral where
  digits : List Char
  exponent : Int
  deriving DecidableEq, Repr

/-- The value of what follows the letter of an exponent. -/
def readExponent? (cs : List Char) : Option Int := readInteger? cs

/-- An unsigned numeral: digits on at least one side of an optional point, then an optional
exponent. -/
def Numeral.read? (cs : List Char) : Option Numeral :=
  let whole := cs.takeWhile Char.isDigit
  let afterWhole := cs.dropWhile Char.isDigit
  let fraction := match afterWhole with
    | '.' :: rest => rest.takeWhile Char.isDigit
    | _ => []
  let rest := match afterWhole with
    | '.' :: rest => rest.dropWhile Char.isDigit
    | _ => afterWhole
  let digits := whole ++ fraction
  let shift : Int := -(fraction.length : Int)
  if digits = [] then none
  else
    match rest with
    | [] => some ⟨digits, shift⟩
    | c :: power =>
      if c = 'e' ∨ c = 'E' then (readExponent? power).map fun e => ⟨digits, e + shift⟩ else none

/-- The rounded magnitude of a numeral, none when it is out of range. Numerals far outside the
range on either side are decided by their number of digits alone. -/
def Numeral.steps? (n : Numeral) : Option Nat :=
  let significant := n.digits.dropWhile (· = '0')
  let magnitude := n.exponent + significant.length
  if significant = [] then some 0
  else if 310 ≤ magnitude then none
  else if magnitude ≤ -330 then some 0
  else
    let value := digitsValue significant
    let steps := if 0 ≤ n.exponent then roundedSteps (value * Nat.pow 10 n.exponent.toNat) 1
      else roundedSteps value (Nat.pow 10 (-n.exponent).toNat)
    if steps < stepsLimit then some steps else none

def readUnsigned? (negative : Bool) (cs : List Char) : Option Decimal :=
  let word := String.ofList (cs.map Char.toLower)
  if word = "nan" then some notANumber
  else if word = "inf" ∨ word = "infinity" then some (infinite negative)
  else (Numeral.read? cs).map fun n =>
    match n.steps? with
    | some steps => finite (if negative then -(steps : Int) else steps)
    | none => infinite negative

def read? (cs : List Char) : Option Decimal :=
  match cs with
  | '-' :: rest => readUnsigned? true rest
  | '+' :: rest => readUnsigned? false rest
  | _ => readUnsigned? false cs

/-- Two values have an order exactly when both are numbers. -/
theorem compare_isSome_iff {a b : Decimal} :
    (compare a b).isSome ↔ a ≠ notANumber ∧ b ≠ notANumber := by
  cases a <;> cases b <;> simp [compare]

end Decimal

end TreeDatabase.Number
