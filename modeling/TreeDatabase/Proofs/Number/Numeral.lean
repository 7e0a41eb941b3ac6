import Mathlib.Data.List.Basic
import Mathlib.Data.List.Induction
import Mathlib.Data.Nat.Digits.Defs
import TreeDatabase.Number.Natural
import TreeDatabase.Proofs.Text.Runs

/-!
# Numerals and their values

Digits have the value of their positions in base ten, below the power of ten of their number.
Numerals, with or without zeros in front, are read as the number they were written for, and
different numbers have different numerals.
-/

namespace TreeDatabase.Number

/-! ## Digits -/

theorem code_of_isDigit {c : Char} (h : c.isDigit = true) : 48 ≤ c.toNat ∧ c.toNat ≤ 57 :=
  Char.isDigit_iff_toNat.mp h

theorem digitValue_lt {c : Char} (h : c.isDigit = true) : digitValue c < 10 := by
  obtain ⟨_, hto⟩ := code_of_isDigit h
  have hzero : '0'.toNat = 48 := rfl
  rw [digitValue]
  omega

theorem toLower_of_isDigit {c : Char} (h : c.isDigit = true) : c.toLower = c := by
  obtain ⟨_, hto⟩ := code_of_isDigit h
  refine dif_neg ?_
  rintro ⟨hfrom, _⟩
  have hletter : 65 ≤ c.toNat := UInt32.le_iff_toNat_le.mp hfrom
  omega

theorem not_isBlank_of_isDigit {c : Char} (h : c.isDigit = true) : Text.isBlank c = false := by
  obtain ⟨hfrom, hto⟩ := code_of_isDigit h
  cases hblank : Text.isBlank c with
  | false => rfl
  | true =>
    simp only [Text.isBlank, Bool.or_eq_true, Bool.and_eq_true, decide_eq_true_eq, beq_iff_eq]
      at hblank
    omega

/-- Nothing is trimmed from what begins and ends with a digit. -/
theorem trimChars_of_digits {cs : List Char} (hfirst : ∀ c ∈ cs.head?, c.isDigit = true)
    (hlast : ∀ c ∈ cs.getLast?, c.isDigit = true) : Text.trimChars cs = cs :=
  Text.trimBy_eq_self (fun c hc => not_isBlank_of_isDigit (hfirst c hc))
    fun c hc => not_isBlank_of_isDigit (hlast c hc)

/-! ## Values of digits -/

theorem digitsValue_snoc (ds : List Char) (d : Char) :
    digitsValue (ds ++ [d]) = 10 * digitsValue ds + digitValue d := by
  rw [digitsValue, List.foldl_append, List.foldl_cons, List.foldl_nil, digitsValue]

theorem digitsValue_eq_ofDigits (ds : List Char) :
    digitsValue ds = Nat.ofDigits 10 (ds.reverse.map digitValue) := by
  induction ds using List.reverseRecOn with
  | nil => rfl
  | append_singleton ds d ih =>
    rw [digitsValue_snoc, List.reverse_append, List.reverse_singleton, List.singleton_append,
      List.map_cons, Nat.ofDigits_cons, ih]
    exact Nat.add_comm _ _

theorem digitsValue_lt {ds : List Char} (h : ∀ d ∈ ds, d.isDigit = true) :
    digitsValue ds < 10 ^ ds.length := by
  have hdigits : ∀ n ∈ ds.reverse.map digitValue, n < 10 := by
    intro n hn
    obtain ⟨d, hd, rfl⟩ := List.mem_map.mp hn
    exact digitValue_lt (h d (List.mem_reverse.mp hd))
  have hlt := Nat.ofDigits_lt_base_pow_length (by decide) hdigits
  rwa [← digitsValue_eq_ofDigits, List.length_map, List.length_reverse] at hlt

theorem digitsValue_zeros (k : Nat) (ds : List Char) :
    digitsValue (List.replicate k '0' ++ ds) = digitsValue ds := by
  induction k with
  | zero => rfl
  | succ k ih =>
    rw [List.replicate_succ, List.cons_append, digitsValue, List.foldl_cons]
    exact ih

theorem digitsValue_toDigits (n : Nat) : digitsValue (Nat.toDigits 10 n) = n :=
  Nat.ofDigitChars_toDigits (by decide) (by decide)

section Reading

variable {ds : List Char} (hne : ds ≠ []) (h : ∀ d ∈ ds, d.isDigit = true)
include hne h

theorem readDigits?_of_digits : readDigits? ds = some (digitsValue ds) :=
  if_pos ⟨hne, List.all_eq_true.mpr h⟩

theorem readNatural?_of_digits {largest : Nat} (hle : digitsValue ds ≤ largest) :
    readNatural? largest ds = some (digitsValue ds) := by
  unfold readNatural?
  split
  · cases h '+' List.mem_cons_self
  · rw [readDigits?_of_digits hne h, Option.filter_some, if_pos (by simpa using hle)]

theorem readInteger?_of_digits : readInteger? ds = some (digitsValue ds : Int) := by
  unfold readInteger?
  split
  · cases h '-' List.mem_cons_self
  · cases h '+' List.mem_cons_self
  · rw [readDigits?_of_digits hne h]
    rfl

end Reading

theorem isDigit_of_readDigits? {ds : List Char} {n : Nat} (h : readDigits? ds = some n) {d : Char}
    (hd : d ∈ ds) : d.isDigit = true := by
  rw [readDigits?, Option.ite_none_right_eq_some] at h
  exact List.all_eq_true.mp h.1.2 d hd

theorem isDigit_or_plus_of_readNatural? {largest n : Nat} {cs : List Char}
    (h : readNatural? largest cs = some n) {c : Char} (hc : c ∈ cs) :
    c.isDigit = true ∨ c = '+' := by
  unfold readNatural? at h
  obtain ⟨h, _⟩ := Option.filter_eq_some_iff.mp h
  split at h
  · rcases List.mem_cons.mp hc with rfl | hc
    · exact .inr rfl
    · exact .inl (isDigit_of_readDigits? h hc)
  · exact .inl (isDigit_of_readDigits? h hc)

/-! ## Numerals -/

theorem isDigit_of_mem_numeral {n : Nat} {c : Char} (hc : c ∈ (numeral n).toList) :
    c.isDigit = true := by
  rw [numeral, String.toList_ofList] at hc
  exact Nat.isDigit_of_mem_toDigits (by decide) (by decide) hc

theorem numeral_ne_blank (n : Nat) : numeral n ≠ "" := by
  intro h
  have hnil := congrArg String.toList h
  rw [numeral, String.toList_ofList] at hnil
  exact Nat.toDigits_ne_nil hnil

theorem toList_numeral_ne_nil (n : Nat) : (numeral n).toList ≠ [] := by
  simpa using numeral_ne_blank n

theorem digitsValue_numeral (n : Nat) : digitsValue (numeral n).toList = n := by
  rw [numeral, String.toList_ofList, digitsValue_toDigits]

theorem numeral_injective : Function.Injective numeral := by
  intro m n h
  rw [← digitsValue_numeral m, ← digitsValue_numeral n, h]

theorem readNatural?_numeral (largest : Nat) {n : Nat} (h : n ≤ largest) :
    readNatural? largest (numeral n).toList = some n := by
  rw [readNatural?_of_digits (toList_numeral_ne_nil n) (fun _ => isDigit_of_mem_numeral)
    (by rwa [digitsValue_numeral]), digitsValue_numeral]

theorem readInt32?_numeral {n : Nat} (h : n ≤ 2147483647) :
    readInt32? (numeral n).toList = some (n : Int) := by
  rw [readInt32?, readInteger?_of_digits (toList_numeral_ne_nil n) fun _ => isDigit_of_mem_numeral,
    digitsValue_numeral, Option.filter_some, if_pos]
  rw [Bool.and_eq_true, decide_eq_true_eq, decide_eq_true_eq]
  omega

/-! ## Numerals of a least width -/

section Padded

variable {width n : Nat}

theorem isDigit_of_mem_padded {c : Char} (hc : c ∈ padded width n) : c.isDigit = true := by
  rcases List.mem_append.mp hc with hc | hc
  · rw [List.eq_of_mem_replicate hc]
    rfl
  · exact Nat.isDigit_of_mem_toDigits (by decide) (by decide) hc

theorem padded_ne_nil (width n : Nat) : padded width n ≠ [] := by
  intro hnil
  exact Nat.toDigits_ne_nil (List.append_eq_nil_iff.mp hnil).2

theorem digitsValue_padded (width n : Nat) : digitsValue (padded width n) = n := by
  rw [padded, digitsValue_zeros, digitsValue_toDigits]

theorem readDigits?_padded (width n : Nat) : readDigits? (padded width n) = some n := by
  rw [readDigits?_of_digits (padded_ne_nil width n) fun _ => isDigit_of_mem_padded,
    digitsValue_padded]

theorem readInteger?_padded (width n : Nat) : readInteger? (padded width n) = some (n : Int) := by
  rw [readInteger?_of_digits (padded_ne_nil width n) fun _ => isDigit_of_mem_padded,
    digitsValue_padded]

theorem length_padded (hwidth : 0 < width) (h : n < 10 ^ width) :
    (padded width n).length = width := by
  have hlength := (Nat.length_toDigits_le_iff (b := 10) (by decide) hwidth).mpr h
  rw [padded, List.length_append, List.length_replicate]
  omega

theorem exists_padded_two (h : n < 100) :
    ∃ a b, padded 2 n = [a, b] ∧ readDigits? [a, b] = some n := by
  have hlength : (padded 2 n).length = 2 := length_padded (by decide) h
  obtain ⟨a, b, hab⟩ := List.length_eq_two.mp hlength
  exact ⟨a, b, hab, by rw [← hab, readDigits?_padded]⟩

end Padded

end TreeDatabase.Number
