import TreeDatabase.Proofs.Number.Numeral
import TreeDatabase.RepeatCount

/-!
# Reading numbers of repetitions

Digits are judged by the number they spell, as long as there are at most 19 of them or the number
is too large anyway. A longer run of digits with a small value begins with zeros, and is refused as
too large all the same.
-/

namespace TreeDatabase

open Number

/-- What a number of repetitions is read as, when nothing counts but its value. -/
def judgeRepeatCount (n : Nat) : Except RepeatFault Nat :=
  if n = 0 then .error .zero else if maxRepeatCount < n then .error .tooLarge else .ok n

theorem judgeRepeatCount_eq_tooLarge_iff {n : Nat} :
    judgeRepeatCount n = .error .tooLarge ↔ maxRepeatCount < n := by
  rw [judgeRepeatCount]
  split
  · next hzero => simp [hzero]
  · split
    · next hlt => simp [hlt]
    · next hle => simp [hle]

theorem judgeRepeatCount_ne_invalid (n : Nat) (text : String) :
    judgeRepeatCount n ≠ .error (.invalid text) := by
  rw [judgeRepeatCount]
  split
  · simp
  · split
    · simp
    · simp

theorem judgeRepeatCount_of_le {n : Nat} (hpos : 1 ≤ n) (hmax : n ≤ maxRepeatCount) :
    judgeRepeatCount n = .ok n := by
  rw [judgeRepeatCount, if_neg (Nat.ne_zero_of_lt hpos), if_neg (Nat.not_lt.mpr hmax)]

theorem readRepeatCount_of_readNatural? {raw : String} {n : Nat} (hlength : raw.length ≤ 19)
    (hread : readNatural? maxUInt64 raw.toList = some n) :
    readRepeatCount raw = judgeRepeatCount n := by
  rw [String.length_toList.symm] at hlength
  rw [readRepeatCount, if_neg (by omega), hread, judgeRepeatCount]
  cases n with
  | zero => rfl
  | succ n =>
    rw [if_neg (Nat.succ_ne_zero n)]
    rfl

theorem readRepeatCount_numeral {n : Nat} (hpos : 1 ≤ n) (hmax : n ≤ maxRepeatCount) :
    readRepeatCount (numeral n) = .ok n := by
  have hlength : (numeral n).length ≤ 7 := by
    rw [← String.length_toList, numeral, String.toList_ofList,
      Nat.length_toDigits_le_iff (by decide) (by decide)]
    exact Nat.lt_succ_of_le hmax
  have hread := readNatural?_numeral maxUInt64 (hmax.trans (by decide))
  rw [readRepeatCount_of_readNatural? (by omega) hread, judgeRepeatCount_of_le hpos hmax]

/-- Nineteen digits never exceed the largest word. -/
theorem digitsValue_le_maxUInt64 {ds : List Char} (h : ∀ d ∈ ds, d.isDigit = true)
    (hlength : ds.length ≤ 19) : digitsValue ds ≤ maxUInt64 := by
  have hlt := digitsValue_lt h
  have hpow : 10 ^ ds.length ≤ 10 ^ 19 := Nat.pow_le_pow_right (by decide) hlength
  have hmax : 10 ^ 19 ≤ maxUInt64 := by decide
  omega

/-- Digits are never malformed. They are read by their value exactly when there are at most 19 of
them or the value is too large, and longer runs count as too large. -/
theorem readRepeatCount_eq_judge_iff {raw : String} {n : Nat} (hne : raw ≠ "")
    (hdigits : ∀ c ∈ raw.toList, c.isDigit = true)
    (hn : Nat.ofDigits 10 (raw.toList.reverse.map digitValue) = n) :
    (readRepeatCount raw = judgeRepeatCount n ↔ raw.length ≤ 19 ∨ maxRepeatCount < n) ∧
      (19 < raw.length → readRepeatCount raw = .error .tooLarge) ∧
      ∀ text, readRepeatCount raw ≠ .error (.invalid text) := by
  have hlong : 19 < raw.length → readRepeatCount raw = .error .tooLarge := fun hlength =>
    if_pos ⟨List.all_eq_true.mpr hdigits, by rwa [String.length_toList]⟩
  have hshort : raw.length ≤ 19 → readRepeatCount raw = judgeRepeatCount n := by
    intro hlength
    have hvalue := digitsValue_le_maxUInt64 hdigits (by rwa [String.length_toList])
    have hread := readNatural?_of_digits (by simpa using hne) hdigits hvalue
    rw [readRepeatCount_of_readNatural? hlength hread, digitsValue_eq_ofDigits, hn]
  rcases Nat.lt_or_ge 19 raw.length with hlength | hlength
  · have htooLarge := hlong hlength
    refine ⟨?_, hlong, fun text hinvalid => ?_⟩
    · rw [htooLarge, eq_comm, judgeRepeatCount_eq_tooLarge_iff]
      exact ⟨.inr, fun h => h.resolve_left (by omega)⟩
    · rw [htooLarge] at hinvalid
      cases hinvalid
  · have hjudged := hshort hlength
    refine ⟨⟨fun _ => .inl hlength, fun _ => hjudged⟩, hlong, fun text => ?_⟩
    rw [hjudged]
    exact judgeRepeatCount_ne_invalid n text

/-- The largest number of repetitions, with zeros in front up to nineteen digits. -/
theorem readRepeatCount_eq_judge_iff_nineteen :
    (∀ c ∈ "0000000000009999999".toList, c.isDigit = true) ∧
      readRepeatCount "0000000000009999999" = .ok 9999999 := by
  have hdigits : ∀ c ∈ "0000000000009999999".toList, c.isDigit = true :=
    List.all_eq_true.mp (by decide)
  have hread := (readRepeatCount_eq_judge_iff (n := 9999999) (by decide) hdigits (by decide)).1
  exact ⟨hdigits, hread.mpr (.inl (by decide))⟩

/-- Twenty digits that spell one are refused as too large. -/
theorem not_readRepeatCount_eq_judge :
    ¬ ∀ raw : String, raw ≠ "" → (∀ c ∈ raw.toList, c.isDigit = true) →
      readRepeatCount raw =
        judgeRepeatCount (Nat.ofDigits 10 (raw.toList.reverse.map digitValue)) := by
  intro h
  have hone := h "00000000000000000001" (by decide) (List.all_eq_true.mp (by decide))
  have hvalue : Nat.ofDigits 10 ("00000000000000000001".toList.reverse.map digitValue) = 1 := by
    decide
  rw [hvalue, judgeRepeatCount_of_le (by decide) (by decide)] at hone
  exact absurd hone (by decide)

end TreeDatabase
