import TreeDatabase.Number.Natural

/-!
# Calendar dates

Days of the proleptic Gregorian calendar and their one written form, month, day and year between
slashes. A year of four digits has no sign; every other year has one.
-/

namespace TreeDatabase.Calendar

open Number

structure Date where
  year : Int
  month : Nat
  day : Nat
  deriving DecidableEq, Repr

namespace Date

/-- Every fourth year, but of the full centuries only every fourth. -/
def isLeapYear (year : Int) : Bool :=
  year % 4 = 0 && (year % 100 ≠ 0 || year % 400 = 0)

def daysInMonth (year : Int) (month : Nat) : Nat :=
  match month with
  | 2 => if isLeapYear year then 29 else 28
  | 4 | 6 | 9 | 11 => 30
  | _ => 31

def minYear : Int := -262143
def maxYear : Int := 262142

def isValid (d : Date) : Bool :=
  minYear ≤ d.year && d.year ≤ maxYear && 1 ≤ d.month && d.month ≤ 12 &&
    1 ≤ d.day && d.day ≤ daysInMonth d.year d.month

/-- A year of four digits is bare; another year has its sign and at least four digits. -/
def renderYear (year : Int) : List Char :=
  if 0 ≤ year ∧ year ≤ 9999 then padded 4 year.toNat
  else if year < 0 then '-' :: padded 4 year.natAbs
  else '+' :: padded 4 year.toNat

def renderChars (d : Date) : List Char :=
  padded 2 d.month ++ '/' :: padded 2 d.day ++ '/' :: renderYear d.year

/-- The written form of a date, month first. -/
def render (d : Date) : String := String.ofList (d.renderChars)

/-- Reads a date. Only the written form of a day of the calendar is read. -/
def read? (cs : List Char) : Option Date :=
  match cs with
  | m₁ :: m₂ :: '/' :: d₁ :: d₂ :: '/' :: ys => do
    let month ← readDigits? [m₁, m₂]
    let day ← readDigits? [d₁, d₂]
    let year ← readInteger? ys
    let date : Date := ⟨year, month, day⟩
    if date.isValid ∧ date.renderChars = cs then some date else none
  | _ => none

def compare (a b : Date) : Ordering :=
  (Ord.compare a.year b.year).then
    ((Ord.compare a.month b.month).then (Ord.compare a.day b.day))

def daysInYear (year : Int) : Nat := if isLeapYear year then 366 else 365

/-- The day of a year that lies `n` days after the first of the month `month`, with at most
`fuel` months still to come. -/
def inYear (year : Int) : (fuel month n : Nat) → Date
  | 0, month, n => ⟨year, month, n + 1⟩
  | fuel + 1, month, n =>
    if n < daysInMonth year month then ⟨year, month, n + 1⟩
    else inYear year fuel (month + 1) (n - daysInMonth year month)

/-- The date that lies `n` days after the first of January of `year`, for `n` days that end within
the next `fuel` years. -/
def afterNewYear : (fuel : Nat) → (year : Int) → (n : Nat) → Date
  | 0, year, n => inYear year 11 1 n
  | fuel + 1, year, n =>
    if n < daysInYear year then inYear year 11 1 n
    else afterNewYear fuel (year + 1) (n - daysInYear year)

end Date

end TreeDatabase.Calendar
