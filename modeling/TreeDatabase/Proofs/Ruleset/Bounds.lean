import TreeDatabase.Proofs.Number.Decimal
import TreeDatabase.Ruleset

/-!
# Bounds that bind

A bound that is admitted for a type has an order with every value of the type, so that the rules
for the greatest and the least value decide by that order. Only decimals that are not a number
have no order with anything, and no such rule finds fault with them.
-/

namespace TreeDatabase

open Number

namespace ValueType

variable {t : ValueType} {v b : String}

/-- A decimal value that is not a number. -/
def IsNotANumber (v : String) : Prop := Decimal.SpellsNotANumber (Text.trimChars v.toList)

theorem decimal?_eq_notANumber_iff : decimal? v = some .notANumber ↔ IsNotANumber v :=
  Decimal.read?_eq_notANumber_iff

/-! ## Values and bounds that are read -/

theorem isSome_compareReadings {α : Type} (order : α → α → Ordering) {x y : Option α} :
    (compareReadings order x y).isSome = true ↔ x.isSome = true ∧ y.isSome = true := by
  cases x <;> cases y <;> simp [compareReadings]

theorem isSome_compare_decimal (hv : (decimal? v).isSome = true)
    (hb : (decimal? b).isSome = true) :
    (compare .decimal v b).isSome = true ↔ ¬ IsNotANumber v ∧ ¬ IsNotANumber b := by
  obtain ⟨x, hx⟩ := Option.isSome_iff_exists.mp hv
  obtain ⟨y, hy⟩ := Option.isSome_iff_exists.mp hb
  rw [← decimal?_eq_notANumber_iff, ← decimal?_eq_notANumber_iff, compare, hx, hy,
    Option.bind_some, Option.bind_some, Decimal.compare_isSome_iff, ne_eq, ne_eq,
    Option.some.injEq, Option.some.injEq]

/-- Of what is admitted, only decimals that are not a number are without an order. -/
theorem isSome_compare_iff (ht : t ≠ .boolean) (hv : v ≠ "") (hb : b ≠ "")
    (hvalue : t.accepts v = true) (hbound : t.acceptsBound b = true) :
    (t.compare v b).isSome = true ↔ (t = .decimal → ¬ IsNotANumber v ∧ ¬ IsNotANumber b) := by
  cases t with
  | boolean => exact absurd rfl ht
  | text =>
    have hread : (integer? b).any (0 ≤ ·) = true := by simpa [acceptsBound, hb] using hbound
    cases hn : integer? b with
    | none => simp [hn] at hread
    | some n => simp [compare, hn]
  | decimal =>
    have hv' : (decimal? v).isSome = true := by simpa [accepts, hv] using hvalue
    have hb' : (decimal? b).isSome = true := by simpa [acceptsBound, accepts, hb] using hbound
    rw [isSome_compare_decimal hv' hb']
    exact ⟨fun h _ => h, fun h => h rfl⟩
  | integer | date | time =>
    simp only [accepts, acceptsBound, hv, hb, beq_iff_eq, Bool.or_eq_true, false_or]
      at hvalue hbound
    simp [compare, isSome_compareReadings, hvalue, hbound]

/-! ## Rules for the greatest and the least value -/

/-- A bound has an order with a value, and the rules for the greatest and the least value decide by
it. -/
structure Binds (t : ValueType) (v b : String) : Prop where
  comparable : (t.compare v b).isSome = true
  max : ∀ store verb batch name existing,
    Ruleset.valueViolation? store verb batch t .max b ⟨name, v, existing⟩ = none ↔
      ∃ order, t.compare v b = some order ∧ order.isLE = true
  min : ∀ store verb batch name existing,
    Ruleset.valueViolation? store verb batch t .min b ⟨name, v, existing⟩ = none ↔
      ∃ order, t.compare v b = some order ∧ order.isGE = true

theorem binds_of_isSome (hv : v ≠ "") (h : (t.compare v b).isSome = true) : t.Binds v b := by
  obtain ⟨order, horder⟩ := Option.isSome_iff_exists.mp h
  refine ⟨h, fun store verb batch name existing => ?_, fun store verb batch name existing => ?_⟩
  · rw [Ruleset.valueViolation?, horder]
    cases order <;> simp [hv]
  · rw [Ruleset.valueViolation?, horder]
    cases order <;> simp [hv]

/-- Every bound that is admitted binds every value of the type, unless one of them is a decimal that
is not a number. -/
theorem binds_iff (ht : t ≠ .boolean) (hv : v ≠ "") (hb : b ≠ "") (hvalue : t.accepts v = true)
    (hbound : t.acceptsBound b = true) :
    t.Binds v b ↔ (t = .decimal → ¬ IsNotANumber v ∧ ¬ IsNotANumber b) := by
  have hiff := isSome_compare_iff ht hv hb hvalue hbound
  exact ⟨fun h => hiff.mp h.comparable, fun h => binds_of_isSome hv (hiff.mpr h)⟩

/-- An infinite value and a bound beyond every finite one. -/
theorem binds_iff_infinite :
    decimal.accepts "-inf" = true ∧ decimal.acceptsBound " 1e400" = true ∧
      decimal.Binds "-inf" " 1e400" := by
  have hvalue : decimal.accepts "-inf" = true := by decide
  have hbound : decimal.acceptsBound " 1e400" = true := by decide
  have hv : ¬ IsNotANumber "-inf" := by
    rw [← decimal?_eq_notANumber_iff]
    decide
  have hb : ¬ IsNotANumber " 1e400" := by
    rw [← decimal?_eq_notANumber_iff]
    decide
  exact ⟨hvalue, hbound,
    (binds_iff (by decide) (by decide) (by decide) hvalue hbound).mpr fun _ => ⟨hv, hb⟩⟩

/-- What is not a number is admitted as a value and as a bound, and has no order with itself. -/
theorem not_isSome_compare_nan :
    ¬ ∀ (t : ValueType) (v b : String), t ≠ .boolean → v ≠ "" → b ≠ "" → t.accepts v = true →
      t.acceptsBound b = true → (t.compare v b).isSome = true := by
  intro h
  have hnan := h .decimal "nan" "nan" (by decide) (by decide) (by decide) (by decide) (by decide)
  exact absurd hnan (by decide)

end ValueType

end TreeDatabase
