import TreeDatabase.Calendar.Clock
import TreeDatabase.Calendar.Date
import TreeDatabase.Proofs.Number.Numeral

/-!
# Dates and times of day

The written form of a time of day, and that of a date in a year of four digits, is read back. Days
are counted off by whole years and then by whole months, so that a number of days from a New Year
on leads to a day of the calendar in one of the years that were counted.
-/

namespace TreeDatabase.Calendar

open Number

/-! ## Times of day -/

namespace Clock

theorem read?_renderChars {t : Clock} (h : t.isValid = true) : read? t.renderChars = some t := by
  have hvalid := h
  simp only [isValid, Bool.and_eq_true, decide_eq_true_eq] at hvalid
  obtain ⟨⟨hhour, hminute⟩, hsecond⟩ := hvalid
  obtain ⟨a, b, hab, hreadHour⟩ := exists_padded_two (n := t.hour) (by omega)
  obtain ⟨c, d, hcd, hreadMinute⟩ := exists_padded_two (n := t.minute) (by omega)
  obtain ⟨e, f, hef, hreadSecond⟩ := exists_padded_two (n := t.second) (by omega)
  have hwritten : t.renderChars = [a, b, ':', c, d, ':', e, f] := by
    rw [renderChars, hab, hcd, hef]
    rfl
  simp only [hwritten, read?, hreadHour, hreadMinute, hreadSecond, Option.bind_eq_bind,
    Option.bind_some, if_pos h]

theorem isValid_afterMidnight {n : Nat} (h : n < 86400) : (afterMidnight n).isValid = true := by
  have hhour : n / 3600 ≤ 23 := by omega
  have hminute : n / 60 % 60 ≤ 59 := by omega
  have hsecond : n % 60 ≤ 60 := by omega
  simp [isValid, afterMidnight, hhour, hminute, hsecond]

end Clock

/-! ## Dates -/

namespace Date

theorem daysInMonth_le (year : Int) (month : Nat) : daysInMonth year month ≤ 31 := by
  unfold daysInMonth
  split
  · split <;> omega
  · omega
  · omega
  · omega
  · omega
  · omega

/-- A day of a year. -/
structure InYear (year : Int) (d : Date) : Prop where
  sameYear : d.year = year
  firstMonth : 1 ≤ d.month
  lastMonth : d.month ≤ 12
  firstDay : 1 ≤ d.day
  lastDay : d.day ≤ daysInMonth year d.month

theorem InYear.isValid {year : Int} {d : Date} (h : InYear year d) (hmin : minYear ≤ year)
    (hmax : year ≤ maxYear) : d.isValid = true := by
  obtain ⟨rfl, hmonth, hmonth', hday, hday'⟩ := h
  simp only [Date.isValid, Bool.and_eq_true, decide_eq_true_eq]
  exact ⟨⟨⟨⟨⟨hmin, hmax⟩, hmonth⟩, hmonth'⟩, hday⟩, hday'⟩

theorem readInteger?_renderYear {year : Int} (hfrom : 0 ≤ year) (hto : year ≤ 9999) :
    readInteger? (renderYear year) = some year := by
  rw [renderYear, if_pos ⟨hfrom, hto⟩, readInteger?_padded, Int.toNat_of_nonneg hfrom]

/-- The written form of a day of a year of four digits is read back. -/
theorem read?_renderChars {year : Int} {d : Date} (h : InYear year d) (hfrom : 0 ≤ year)
    (hto : year ≤ 9999) : read? d.renderChars = some d := by
  have hvalid : d.isValid = true := by
    refine h.isValid ?_ ?_
    · rw [minYear]
      omega
    · rw [maxYear]
      omega
  obtain ⟨rfl, _, hmonth, _, hday⟩ := h
  have hday' := hday.trans (daysInMonth_le d.year d.month)
  obtain ⟨a, b, hab, hreadMonth⟩ := exists_padded_two (n := d.month) (by omega)
  obtain ⟨e, f, hef, hreadDay⟩ := exists_padded_two (n := d.day) (by omega)
  have hwritten : d.renderChars = a :: b :: '/' :: e :: f :: '/' :: renderYear d.year := by
    rw [renderChars, hab, hef]
    rfl
  simp only [hwritten, read?, hreadMonth, hreadDay, readInteger?_renderYear hfrom hto,
    Option.bind_eq_bind, Option.bind_some]
  rw [if_pos ⟨hvalid, trivial⟩]

/-! ## Counting days -/

/-- The days of a year from the first of a month on, with `fuel` months after that one. -/
def daysFrom (year : Int) : (fuel month : Nat) → Nat
  | 0, month => daysInMonth year month
  | fuel + 1, month => daysInMonth year month + daysFrom year fuel (month + 1)

theorem daysFrom_january (year : Int) : daysFrom year 11 1 = daysInYear year := by
  simp only [daysFrom, daysInMonth, daysInYear]
  split <;> rfl

theorem inYear_inYear {year : Int} {fuel month n : Nat} (hfirst : 1 ≤ month)
    (hlast : month + fuel = 12) (hn : n < daysFrom year fuel month) :
    InYear year (inYear year fuel month n) := by
  have hmonth : month ≤ 12 := by omega
  induction fuel generalizing month n with
  | zero => exact ⟨rfl, hfirst, hmonth, Nat.le_add_left 1 n, hn⟩
  | succ fuel ih =>
    rw [daysFrom] at hn
    rw [inYear]
    split
    · next hday => exact ⟨rfl, hfirst, hmonth, Nat.le_add_left 1 n, hday⟩
    · exact ih (by omega) (by omega) (by omega) (by omega)

/-- The days of a year and of the `fuel` years after it. -/
def daysOfYears : (fuel : Nat) → (year : Int) → Nat
  | 0, year => daysInYear year
  | fuel + 1, year => daysInYear year + daysOfYears fuel (year + 1)

/-- Days that are counted from a New Year on end in one of the years that were counted. -/
theorem inYear_afterNewYear {fuel : Nat} {year : Int} {n : Nat} (hn : n < daysOfYears fuel year) :
    ∃ y, year ≤ y ∧ y ≤ year + fuel ∧ InYear y (afterNewYear fuel year n) := by
  have hinYear : ∀ year n, n < daysInYear year → InYear year (inYear year 11 1 n) :=
    fun year n hn => inYear_inYear (by decide) (by decide) (by rwa [daysFrom_january])
  induction fuel generalizing year n with
  | zero => exact ⟨year, by omega, by omega, hinYear year n hn⟩
  | succ fuel ih =>
    rw [daysOfYears] at hn
    rw [afterNewYear]
    split
    · next hyear => exact ⟨year, by omega, by omega, hinYear year n hyear⟩
    · have hrest : n - daysInYear year < daysOfYears fuel (year + 1) := by omega
      obtain ⟨y, hfrom, hto, hy⟩ := ih hrest
      exact ⟨y, by omega, by omega, hy⟩

/-! ## Order -/

theorem isGE_then {a b : Ordering} (ha : a.isGE = true) (hb : b.isGE = true) :
    (a.then b).isGE = true := by
  cases a with
  | lt => cases ha
  | eq => exact hb
  | gt => rfl

theorem isLE_then {a b : Ordering} (ha : a.isLE = true) (hb : b.isLE = true) :
    (a.then b).isLE = true := by
  cases a with
  | lt => rfl
  | eq => exact hb
  | gt => cases ha

/-- No day lies before the first one of its year or of an earlier year. -/
theorem InYear.isGE_compare {first year : Int} {d : Date} (h : InYear year d)
    (hyear : first ≤ year) : (compare d ⟨first, 1, 1⟩).isGE = true := by
  obtain ⟨rfl, hmonth, _, hday, _⟩ := h
  exact isGE_then (Int.isGE_compare.mpr hyear)
    (isGE_then (Nat.isGE_compare.mpr hmonth) (Nat.isGE_compare.mpr hday))

/-- No day lies after the last one of its year or of a later year. -/
theorem InYear.isLE_compare {last year : Int} {d : Date} (h : InYear year d)
    (hyear : year ≤ last) : (compare d ⟨last, 12, 31⟩).isLE = true := by
  obtain ⟨rfl, _, hmonth, _, hday⟩ := h
  exact isLE_then (Int.isLE_compare.mpr hyear)
    (isLE_then (Nat.isLE_compare.mpr hmonth)
      (Nat.isLE_compare.mpr (hday.trans (daysInMonth_le d.year d.month))))

end Date

end TreeDatabase.Calendar
