import TreeDatabase.Calendar.Clock
import TreeDatabase.Calendar.Date
import TreeDatabase.Draws
import TreeDatabase.Generator.Names
import TreeDatabase.Resolver

/-!
# Standard generators

A resolver that makes fresh numbers, names, texts, numbers, dates and times. Random choice comes
from a stream of draws, and the present from a clock that is set from outside.
-/

namespace TreeDatabase

open Calendar Number

structure Moment where
  date : Date
  time : Clock
  deriving DecidableEq, Repr

/-- The state of the standard generators: the next number to try, the draws and the present. -/
structure StandardState where
  nextId : Nat := 0
  draws : Draws
  now : Moment

namespace Standard

/-- The lengths of generated texts: the bound without a parameter, and the largest parameter. -/
def defaultTextLength : Nat := 10
def maxTextLength : Nat := 100

def defaultInteger : Nat := 2147483647
def maxInteger : Nat := 99999999

/-- The bounds of the whole part of generated decimals, and of the two digits after the point. -/
def defaultDecimal : Nat := 9999999
def maxDecimal : Nat := 999999
def decimalFraction : Nat := 99

def boundedParameter? (largest : Nat) (parameter : String) : Option Nat :=
  (readNatural? maxUInt64 parameter.toList).filter (· ≤ largest)

/-- The bound that a request sets: its own, or the default when it has no parameter. -/
def bound? (default largest : Nat) : Option String → Option Nat
  | none => some default
  | some parameter => boundedParameter? largest parameter

def letters : List Char := "ABCDEFGHIJKLMNOPQRSTUVWXYZabcdefghijklmnopqrstuvwxyz".toList

def randomLetters : Nat → Draws → List Char × Draws
  | 0, d => ([], d)
  | n + 1, d =>
    let (i, d) := d.below letters.length
    let (rest, d) := randomLetters n d
    (letters.getD i 'A' :: rest, d)

def randomText (length : Nat) (d : Draws) : String × Draws :=
  let (cs, d) := randomLetters length d
  (String.ofList cs, d)

/-- The least number from `next` on whose numeral names no node. There are more candidates than
names. -/
def freshId (store : Store) (next : Nat) : Nat :=
  ((List.range' next (store.index.size + 1)).find? fun n =>
    !store.containsName (numeral n)).getD next

def anyName (names : List String) (d : Draws) : String × Draws :=
  let (i, d) := d.below names.length
  (names.getD i "", d)

/-- A name from a list that is no name and no value in the store, looked for from a random place
on and around; a random text when there is none. -/
def unusedName (names : List String) (store : Store) (d : Draws) : String × Draws :=
  let (start, d) := d.below names.length
  match (names.drop start ++ names.take start).find? fun name =>
      !store.containsName name && !store.containsValue name with
  | some name => (name, d)
  | none => randomText defaultTextLength d

def isUniqueParameter (parameter : String) : Bool := Text.equalsIgnoringCase parameter "unique"

def isNowParameter (parameter : String) : Bool := Text.equalsIgnoringCase parameter "now"

/-- The number of days from the first of January 1920 to the end of 2020. -/
def dateSpan : Nat := 36891

def date (parameter : Option String) (now : Moment) (d : Draws) : Option String × Draws :=
  match parameter with
  | none =>
    let (n, d) := d.below dateSpan
    (some (Date.afterNewYear 100 1920 n).render, d)
  | some p => (if isNowParameter p then some now.date.render else none, d)

def time (parameter : Option String) (now : Moment) (d : Draws) : Option String × Draws :=
  match parameter with
  | none =>
    let (n, d) := d.below 86400
    (some (Clock.afterMidnight n).render, d)
  | some p => (if isNowParameter p then some now.time.render else none, d)

def name (names : List String) (parameter : Option String) (store : Store) (d : Draws) :
    Option String × Draws :=
  match parameter with
  | none =>
    let (name, d) := anyName names d
    (some name, d)
  | some p =>
    if isUniqueParameter p then
      let (name, d) := unusedName names store d
      (some name, d)
    else (none, d)

def text (parameter : Option String) (d : Draws) : Option String × Draws :=
  match parameter with
  | none =>
    let (length, d) := d.below (defaultTextLength + 1)
    let (t, d) := randomText length d
    (some t, d)
  | some p =>
    match boundedParameter? maxTextLength p with
    | none => (none, d)
    | some length =>
      let (t, d) := randomText length d
      (some t, d)

def integer (parameter : Option String) (d : Draws) : Option String × Draws :=
  match bound? defaultInteger maxInteger parameter with
  | none => (none, d)
  | some largest =>
    let (n, d) := d.below (largest + 1)
    (some (numeral n), d)

def decimal (parameter : Option String) (d : Draws) : Option String × Draws :=
  match bound? defaultDecimal maxDecimal parameter with
  | none => (none, d)
  | some largest =>
    let (whole, d) := d.below (largest + 1)
    let (fraction, d) := d.below (decimalFraction + 1)
    (some (numeral whole ++ "." ++ String.ofList (padded 2 fraction)), d)

def boolean (parameter : Option String) (d : Draws) : Option String × Draws :=
  match parameter with
  | none =>
    let (n, d) := d.below 2
    (some (if n = 0 then "false" else "true"), d)
  | some _ => (none, d)

/-- The answer of every generator that needs draws only. -/
def draw (request : KeywordRequest) (store : Store) (now : Moment) (d : Draws) :
    Option String × Draws :=
  match request.generator with
  | .newId => (none, d)
  | .firstNameMale => name Names.male request.parameter store d
  | .firstNameFemale => name Names.female request.parameter store d
  | .lastName => name Names.last request.parameter store d
  | .time => time request.parameter now d
  | .date => date request.parameter now d
  | .integer => integer request.parameter d
  | .decimal => decimal request.parameter d
  | .text => text request.parameter d
  | .boolean => boolean request.parameter d

/-- Fresh numbers are made only for names and without a parameter. -/
def resolve (request : KeywordRequest) (store : Store) (state : StandardState) :
    Option String × StandardState :=
  if request.generator = .newId then
    if request.field.isName && request.parameter.isNone then
      let id := freshId store state.nextId
      (some (numeral id), { state with nextId := id + 1 })
    else (none, state)
  else
    let (answer, draws) := draw request store state.now state.draws
    (answer, { state with draws })

end Standard

def Resolver.standard : Resolver StandardState := ⟨Standard.resolve⟩

end TreeDatabase
