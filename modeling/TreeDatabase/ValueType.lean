import TreeDatabase.Calendar.Clock
import TreeDatabase.Calendar.Date
import TreeDatabase.Number.Decimal
import TreeDatabase.Text.Blank

/-!
# Types of values

Values are texts. A type says which texts are well formed, which are bounds, and how a value
compares with a bound. The blank value is well formed for every type.
-/

namespace TreeDatabase

open Calendar Number

inductive ValueType where
  | text
  | integer
  | boolean
  | decimal
  | date
  | time
  deriving DecidableEq, Repr

namespace ValueType

def all : List ValueType := [text, integer, boolean, decimal, date, time]

def name : ValueType → String
  | text => "text"
  | integer => "integer"
  | boolean => "boolean"
  | decimal => "decimal"
  | date => "date"
  | time => "time"

def ofName? (word : String) : Option ValueType := all.find? (·.name == word)

/-- The 32-bit integer that a text holds between blanks. -/
def integer? (value : String) : Option Int := readInt32? (Text.trimChars value.toList)

def decimal? (value : String) : Option Decimal := Decimal.read? (Text.trimChars value.toList)

def date? (value : String) : Option Date := Date.read? value.toList

def time? (value : String) : Option Clock := Clock.read? value.toList

def accepts (t : ValueType) (value : String) : Bool :=
  value == "" ||
    match t with
    | text => true
    | integer => (integer? value).isSome
    | boolean => value == "true" || value == "false"
    | decimal => (decimal? value).isSome
    | date => (date? value).isSome
    | time => (time? value).isSome

/-- Whether a text can bound the values of a type. Texts are bounded by their length, and booleans
have no bounds. -/
def acceptsBound (t : ValueType) (bound : String) : Bool :=
  bound == "" ||
    match t with
    | text => (integer? bound).any (0 ≤ ·)
    | boolean => false
    | _ => t.accepts bound

def compareReadings {α : Type} (order : α → α → Ordering) (a b : Option α) : Option Ordering := do
  return order (← a) (← b)

/-- How a value compares with a bound: none when either is not well formed. -/
def compare (t : ValueType) (value bound : String) : Option Ordering :=
  match t with
  | text => (integer? bound).map fun n => Ord.compare (value.length : Int) n
  | integer => compareReadings Ord.compare (integer? value) (integer? bound)
  | decimal => (decimal? value).bind fun v => (decimal? bound).bind v.compare
  | date => compareReadings Date.compare (date? value) (date? bound)
  | time => compareReadings Clock.compare (time? value) (time? bound)
  | boolean => none

/-- Whether the least bound does not exceed the greatest. Missing bounds and bounds that cannot be
compared count as ordered. -/
def boundsOrdered (t : ValueType) (min max : String) : Bool :=
  min == "" || max == "" ||
    (match t with
      | text => compareReadings Ord.compare (integer? min) (integer? max)
      | _ => t.compare min max) != some .gt

theorem ofName?_name (t : ValueType) : ofName? t.name = some t := by
  cases t <;> decide

@[simp] theorem accepts_blank (t : ValueType) : t.accepts "" = true := by
  simp [accepts]

@[simp] theorem acceptsBound_blank (t : ValueType) : t.acceptsBound "" = true := by
  simp [acceptsBound]

end ValueType

end TreeDatabase
