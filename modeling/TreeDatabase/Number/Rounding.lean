/-!
# Rounding to 53 binary digits

Magnitudes are counted in steps of two to the power -1074, the finest step there is. Small
magnitudes may be any number of steps; larger ones keep 53 binary digits, so that the step doubles
with each power of two. A magnitude between two steps goes to the nearer, one half way to the even
one.
-/

namespace TreeDatabase.Number

/-- The quotient rounded to the nearest natural number, from half way to the even one. -/
def roundQuotient (num den : Nat) : Nat :=
  let q := num / den
  let r := num % den
  if 2 * r < den then q
  else if den < 2 * r then q + 1
  else if q % 2 = 0 then q else q + 1

def stepsInUnit : Nat := Nat.pow 2 1074

def stepsLimit : Nat := Nat.pow 2 2098

/-- The rounded number of steps in the quotient of two numbers. -/
def roundedSteps (num den : Nat) : Nat :=
  let steps := num * stepsInUnit
  let width := Nat.log2 (steps / den) + 1
  let dropped := width - 53
  roundQuotient steps (den * Nat.pow 2 dropped) * Nat.pow 2 dropped

end TreeDatabase.Number
