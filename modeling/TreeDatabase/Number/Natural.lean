/-!
# Decimal numerals

Reading and writing natural numbers and integers in base ten. A numeral is read only when every
character after an optional sign is a digit and there is at least one.
-/

namespace TreeDatabase.Number

def digitValue (c : Char) : Nat := c.toNat - '0'.toNat

/-- The value of a run of digits, the most significant first. -/
def digitsValue (ds : List Char) : Nat := ds.foldl (fun n d => 10 * n + digitValue d) 0

/-- A numeral without a sign. -/
def readDigits? (cs : List Char) : Option Nat :=
  if cs ≠ [] ∧ cs.all Char.isDigit then some (digitsValue cs) else none

/-- A numeral that may have a plus sign, up to a largest value. -/
def readNatural? (largest : Nat) (cs : List Char) : Option Nat :=
  (readDigits? (match cs with
    | '+' :: rest => rest
    | _ => cs)).filter (· ≤ largest)

/-- A numeral that may have a sign. -/
def readInteger? (cs : List Char) : Option Int :=
  match cs with
  | '-' :: rest => (readDigits? rest).map fun n => -(n : Int)
  | '+' :: rest => (readDigits? rest).map Int.ofNat
  | _ => (readDigits? cs).map Int.ofNat

/-- A numeral that may have a sign, in the range of 32-bit integers. -/
def readInt32? (cs : List Char) : Option Int :=
  (readInteger? cs).filter fun n => -2147483648 ≤ n && n ≤ 2147483647

def total (ns : List Nat) : Nat := ns.foldr (· + ·) 0

theorem total_cons (n : Nat) (ns : List Nat) : total (n :: ns) = n + total ns := rfl

theorem total_append (ns ms : List Nat) : total (ns ++ ms) = total ns + total ms := by
  induction ns with
  | nil => exact (Nat.zero_add _).symm
  | cons n ns ih => rw [List.cons_append, total_cons, total_cons, ih, Nat.add_assoc]

theorem total_map_one {α : Type} (as : List α) : total (as.map fun _ => 1) = as.length := by
  induction as with
  | nil => rfl
  | cons a as ih => rw [List.map_cons, total_cons, ih, List.length_cons, Nat.add_comm]

def maxUInt64 : Nat := 18446744073709551615

def numeral (n : Nat) : String := String.ofList (Nat.toDigits 10 n)

/-- The numeral of a number, with zeros in front up to a least width. -/
def padded (width n : Nat) : List Char :=
  let ds := Nat.toDigits 10 n
  List.replicate (width - ds.length) '0' ++ ds

/-- Cuts digits into groups of three from the right. -/
def groupDigits : List Char → List Char
  | [] => []
  | d :: ds =>
    if ds ≠ [] ∧ ds.length % 3 = 0 then d :: ',' :: groupDigits ds else d :: groupDigits ds

/-- The numeral of a number with a comma between groups of three digits. -/
def grouped (n : Nat) : String := String.ofList (groupDigits (Nat.toDigits 10 n))

end TreeDatabase.Number
