import TreeDatabase.Number.Natural

/-!
# Times of day

Hours, minutes and seconds with their one written form. A minute may have a sixtieth second, a
leap second, which lies between its last second and the next minute.
-/

namespace TreeDatabase.Calendar

open Number

structure Clock where
  hour : Nat
  minute : Nat
  second : Nat
  deriving DecidableEq, Repr

namespace Clock

def isValid (t : Clock) : Bool := t.hour ≤ 23 && t.minute ≤ 59 && t.second ≤ 60

def renderChars (t : Clock) : List Char :=
  padded 2 t.hour ++ ':' :: padded 2 t.minute ++ ':' :: padded 2 t.second

/-- The written form of a time: two digits for each part. -/
def render (t : Clock) : String := String.ofList t.renderChars

/-- Reads a time. Only the written form of a time of day is read. -/
def read? (cs : List Char) : Option Clock :=
  match cs with
  | [h₁, h₂, ':', m₁, m₂, ':', s₁, s₂] => do
    let hour ← readDigits? [h₁, h₂]
    let minute ← readDigits? [m₁, m₂]
    let second ← readDigits? [s₁, s₂]
    let time : Clock := ⟨hour, minute, second⟩
    if time.isValid then some time else none
  | _ => none

def compare (a b : Clock) : Ordering :=
  (Ord.compare a.hour b.hour).then
    ((Ord.compare a.minute b.minute).then (Ord.compare a.second b.second))

/-- The time that lies `n` seconds after midnight. -/
def afterMidnight (n : Nat) : Clock := ⟨n / 3600, n / 60 % 60, n % 60⟩

end Clock

end TreeDatabase.Calendar
