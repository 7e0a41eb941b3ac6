import TreeDatabase.Calendar.Date
import TreeDatabase.Number.Decimal
import TreeDatabase.Number.Hexadecimal
import TreeDatabase.Text.Split

/-!
# Scalars in TOML

Which words are booleans, integers, floating-point numbers, dates and times. Only their form is
looked at, and whether they are in range.
-/

namespace TreeDatabase.Toml

open Calendar Number

/-- Digits with single underscores between them, without the underscores. -/
def ungroup? (isDigit : Char → Bool) (cs : List Char) : Option (List Char) :=
  let groups := Text.pieces (· == '_') cs
  if groups.all fun g => !g.isEmpty && g.all isDigit then some groups.flatten else none

def dropSign : List Char → List Char
  | '+' :: rest => rest
  | '-' :: rest => rest
  | cs => cs

/-- The digits of a whole number without a sign: no zero in front. -/
def wholeDigits? (cs : List Char) : Option (List Char) :=
  (ungroup? Char.isDigit cs).filter fun ds => ds.length = 1 || ds.head? ≠ some '0'

def maxInt64 : Nat := 9223372036854775807

def isDecimalInteger (cs : List Char) : Bool :=
  (wholeDigits? (dropSign cs)).any fun ds =>
    digitsValue ds ≤ (if cs.head? = some '-' then maxInt64 + 1 else maxInt64)

def valueIn (base : Nat) (ds : List Char) : Nat :=
  ds.foldl (fun n d => base * n + (hexDigitValue? d).getD 0) 0

def isBasedInteger (base : Nat) (cs : List Char) : Bool :=
  (ungroup? (fun c => (hexDigitValue? c).any (· < base)) cs).any (valueIn base · ≤ maxInt64)

def isInteger (cs : List Char) : Bool :=
  match cs with
  | '0' :: 'x' :: rest => isBasedInteger 16 rest
  | '0' :: 'o' :: rest => isBasedInteger 8 rest
  | '0' :: 'b' :: rest => isBasedInteger 2 rest
  | _ => isDecimalInteger cs

/-- Whether a number with a fraction or an exponent is in range. Only values above the range are
not. -/
def isInRange (cs : List Char) : Bool :=
  Decimal.read? (cs.filter (· ≠ '_')) ≠ some (.infinite false)

/-- Whether a text is a whole number with a fraction, an exponent or both. -/
def isFractional (cs : List Char) : Bool :=
  let parts := Text.cutAt (fun c => c == 'e' || c == 'E') (dropSign cs)
  let mantissa := Text.cutAt (· == '.') parts.1
  (parts.2.isSome || mantissa.2.isSome) && (wholeDigits? mantissa.1).isSome &&
    mantissa.2.all (fun f => (ungroup? Char.isDigit f).isSome) &&
    parts.2.all (fun e => (ungroup? Char.isDigit (dropSign e)).isSome) && isInRange cs

def isFloat (cs : List Char) : Bool :=
  ["inf".toList, "nan".toList].contains (dropSign cs) || isFractional cs

/-- Two digits up to a largest value. -/
def isPair (largest : Nat) (a b : Char) : Bool := (readDigits? [a, b]).any (· ≤ largest)

def isDate : List Char → Bool
  | [y₁, y₂, y₃, y₄, '-', m₁, m₂, '-', d₁, d₂] =>
    match readDigits? [y₁, y₂, y₃, y₄], readDigits? [m₁, m₂], readDigits? [d₁, d₂] with
    | some y, some m, some d => Date.isValid ⟨y, m, d⟩
    | _, _, _ => false
  | _ => false

/-- What follows a time of day with an optional fraction of the second. -/
def afterTime? : List Char → Option (List Char)
  | h₁ :: h₂ :: ':' :: m₁ :: m₂ :: ':' :: s₁ :: s₂ :: rest =>
    if isPair 23 h₁ h₂ && isPair 59 m₁ m₂ && isPair 60 s₁ s₂ then
      match rest with
      | '.' :: d :: rest => if d.isDigit then some (rest.dropWhile Char.isDigit) else none
      | _ => some rest
    else none
  | _ => none

def isOffset : List Char → Bool
  | ['Z'] | ['z'] => true
  | [sign, h₁, h₂, ':', m₁, m₂] =>
    (sign == '+' || sign == '-') && isPair 23 h₁ h₂ && isPair 59 m₁ m₂
  | _ => false

/-- Whether a text is a time of day, and with `zoned` perhaps an offset from universal time. -/
def isTime (zoned : Bool) (cs : List Char) : Bool :=
  (afterTime? cs).any fun rest => rest.isEmpty || (zoned && isOffset rest)

def isDateTime (cs : List Char) : Bool :=
  isDate cs || isTime false cs ||
    (isDate (cs.take 10) && (["T", "t"].map String.toList).contains ((cs.drop 10).take 1) &&
      isTime true (cs.drop 11))

def isScalar (cs : List Char) : Bool :=
  ["true".toList, "false".toList].contains cs || isInteger cs || isFloat cs || isDateTime cs

/-- The characters of which scalars other than strings consist. -/
def isScalarChar (c : Char) : Bool := c.isAlphanum || "+-_.:".toList.contains c

/-- What follows a scalar that is no string. A date may have a time after a blank. -/
def skipScalar (cs : List Char) : Option (List Char) :=
  let word := cs.takeWhile isScalarChar
  let rest := cs.dropWhile isScalarChar
  if isScalar word then
    match rest with
    | ' ' :: after =>
      if isDate word && isTime true (after.takeWhile isScalarChar) then
        some (after.dropWhile isScalarChar)
      else some rest
    | _ => some rest
  else none

end TreeDatabase.Toml
