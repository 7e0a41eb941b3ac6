import TreeDatabase.Generator.Standard
import TreeDatabase.Proofs.Calendar
import TreeDatabase.Proofs.Number.Decimal
import TreeDatabase.ValueType

/-!
# Generated values and their types

Numbers, truth values, dates and times that are generated are values of the type that is named like
the generator, whatever is drawn. Of the requests with a number for a parameter, those for numbers
are answered up to a largest parameter, and then the answer keeps to it.
-/

namespace TreeDatabase

open Calendar Number

/-- The type of values that is named like a generator. -/
def Generator.valueType? (g : Generator) : Option ValueType := ValueType.ofName? (Text.lower g.name)

namespace Standard

variable {t : ValueType} {parameter : Option String}

/-! ## Parameters -/

/-- Whether a parameter, if there is one, is the numeral of a word. -/
def IsNumeric (parameter : Option String) : Prop :=
  ∀ p, parameter = some p → (readNatural? maxUInt64 p.toList).isSome = true

/-- The number that bounds an answer: the parameter, or a default without one. -/
def limit (default : Nat) : Option String → Nat
  | none => default
  | some p => (readNatural? maxUInt64 p.toList).getD default

/-- The largest parameter of the generator of a type: none when it takes no numbers. -/
def largestParameter? : ValueType → Option Nat
  | .integer => some maxInteger
  | .decimal => some maxDecimal
  | _ => none

/-- A parameter, if there is one, is a number up to the largest that the generator takes. -/
def Admits (t : ValueType) (parameter : Option String) : Prop :=
  ∀ p, parameter = some p → ∃ n largest, readNatural? maxUInt64 p.toList = some n ∧
    largestParameter? t = some largest ∧ n ≤ largest

theorem admits_iff {default largest : Nat} (ht : largestParameter? t = some largest) :
    Admits t parameter ↔ (bound? default largest parameter).isSome = true := by
  cases parameter with
  | none => simp [Admits, bound?]
  | some p =>
    cases hread : readNatural? maxUInt64 p.toList with
    | none => simp [Admits, bound?, boundedParameter?, hread]
    | some n => simp [Admits, bound?, boundedParameter?, hread, ht, Option.filter_some]

theorem not_admits {p : String} (ht : largestParameter? t = none) : ¬ Admits t (some p) := by
  intro h
  obtain ⟨_, largest, _, hlargest, _⟩ := h p rfl
  rw [ht] at hlargest
  cases hlargest

theorem limit_of_bound? {default largest n : Nat} (h : bound? default largest parameter = some n) :
    limit default parameter = n ∧ n ≤ max default largest := by
  cases parameter with
  | none =>
    obtain rfl := Option.some.inj h
    exact ⟨rfl, Nat.le_max_left _ _⟩
  | some p =>
    rw [bound?, boundedParameter?, Option.filter_eq_some_iff, decide_eq_true_eq] at h
    exact ⟨by rw [limit, h.1, Option.getD_some], h.2.trans (Nat.le_max_right _ _)⟩

/-- The word for the present is no numeral. -/
theorem isNowParameter_of_isNumeric {p : String} (h : IsNumeric (some p)) :
    isNowParameter p = false := by
  cases hnow : isNowParameter p with
  | false => rfl
  | true =>
    rw [isNowParameter, Text.equalsIgnoringCase, beq_iff_eq, Text.lower, Text.lower,
      String.ofList_inj] at hnow
    obtain ⟨n, hn⟩ := Option.isSome_iff_exists.mp (h p rfl)
    obtain ⟨c, hc, hlower⟩ := List.mem_map.mp (hnow ▸ List.mem_cons_self :
      'n' ∈ p.toList.map Char.toLower)
    rcases isDigit_or_plus_of_readNatural? hn hc with hdigit | rfl
    · rw [toLower_of_isDigit hdigit] at hlower
      rw [hlower] at hdigit
      cases hdigit
    · cases hlower

/-! ## Answers -/

/-- What an answer of the generator of a type is, under the parameter of the request. -/
structure Fits (t : ValueType) (parameter : Option String) (answer : String) : Prop where
  nonblank : answer ≠ ""
  accepted : t.accepts answer = true
  integer : t = .integer → ∃ n : Nat, ValueType.integer? answer = some (n : Int) ∧
    n ≤ limit defaultInteger parameter
  decimal : t = .decimal → ∃ whole fraction,
    answer = numeral whole ++ "." ++ String.ofList (padded 2 fraction) ∧
      whole ≤ limit defaultDecimal parameter ∧ fraction ≤ decimalFraction
  date : t = .date → ∃ afterFirst beforeLast,
    t.compare answer "01/01/1920" = some afterFirst ∧ afterFirst.isGE = true ∧
      t.compare answer "12/31/2020" = some beforeLast ∧ beforeLast.isLE = true

theorem fits_integer {largest n : Nat}
    (hbound : bound? defaultInteger maxInteger parameter = some largest) (hn : n ≤ largest) :
    Fits .integer parameter (numeral n) := by
  obtain ⟨hlimit, hlargest⟩ := limit_of_bound? hbound
  have hmax : n ≤ 2147483647 := hn.trans (hlargest.trans (by decide))
  have hread : ValueType.integer? (numeral n) = some (n : Int) := by
    rw [ValueType.integer?, trimChars_of_digits
      (fun c hc => isDigit_of_mem_numeral (List.mem_of_mem_head? hc))
      (fun c hc => isDigit_of_mem_numeral (List.mem_of_getLast? hc)), readInt32?_numeral hmax]
  exact {
    nonblank := numeral_ne_blank n
    accepted := by simp [ValueType.accepts, hread]
    integer := fun _ => ⟨n, hread, hlimit ▸ hn⟩
    decimal := by simp
    date := by simp }

theorem fits_decimal {largest whole fraction : Nat}
    (hbound : bound? defaultDecimal maxDecimal parameter = some largest) (hwhole : whole ≤ largest)
    (hfraction : fraction ≤ decimalFraction) :
    Fits .decimal parameter (numeral whole ++ "." ++ String.ofList (padded 2 fraction)) := by
  obtain ⟨hlimit, _⟩ := limit_of_bound? hbound
  have hchars : (numeral whole ++ "." ++ String.ofList (padded 2 fraction)).toList =
      (numeral whole).toList ++ '.' :: padded 2 fraction := by
    simp
  have hread : (ValueType.decimal? (numeral whole ++ "." ++
      String.ofList (padded 2 fraction))).isSome = true := by
    have hwhole : ∀ c ∈ (numeral whole).toList, c.isDigit = true := fun _ => isDigit_of_mem_numeral
    have hfraction : ∀ c ∈ padded 2 fraction, c.isDigit = true := fun _ => isDigit_of_mem_padded
    have hne := toList_numeral_ne_nil whole
    rw [ValueType.decimal?, hchars,
      Decimal.trimChars_point hwhole hfraction hne (padded_ne_nil 2 fraction)]
    exact Decimal.isSome_read?_point hwhole hfraction hne
  exact {
    nonblank := by
      rw [← String.toList_inj.ne, hchars]
      simp
    accepted := by simp [ValueType.accepts, hread]
    integer := by simp
    decimal := fun _ => ⟨whole, fraction, rfl, hlimit ▸ hwhole, hfraction⟩
    date := by simp }

theorem fits_date {n : Nat} (hn : n < dateSpan) :
    Fits .date parameter (Date.afterNewYear 100 1920 n).render := by
  have hspan : dateSpan = Date.daysOfYears 100 1920 := by decide
  obtain ⟨year, hfrom, hto, hyear⟩ := Date.inYear_afterNewYear (hspan ▸ hn)
  have hread : ValueType.date? (Date.afterNewYear 100 1920 n).render =
      some (Date.afterNewYear 100 1920 n) := by
    rw [ValueType.date?, Date.render, String.toList_ofList]
    exact Date.read?_renderChars hyear (by omega) (by omega)
  have hfirst : ValueType.date? "01/01/1920" = some ⟨1920, 1, 1⟩ := by decide
  have hlast : ValueType.date? "12/31/2020" = some ⟨2020, 12, 31⟩ := by decide
  exact {
    nonblank := by
      intro hblank
      rw [hblank] at hread
      cases hread
    accepted := by simp [ValueType.accepts, hread]
    integer := by simp
    decimal := by simp
    date := fun _ => ⟨_, _, by rw [ValueType.compare, hread, hfirst]; rfl,
      hyear.isGE_compare (by omega), by rw [ValueType.compare, hread, hlast]; rfl,
      hyear.isLE_compare (by omega)⟩ }

theorem fits_time {n : Nat} (hn : n < 86400) :
    Fits .time parameter (Clock.afterMidnight n).render := by
  have hread : ValueType.time? (Clock.afterMidnight n).render = some (Clock.afterMidnight n) := by
    rw [ValueType.time?, Clock.render, String.toList_ofList]
    exact Clock.read?_renderChars (Clock.isValid_afterMidnight hn)
  exact {
    nonblank := by
      intro hblank
      rw [hblank] at hread
      cases hread
    accepted := by simp [ValueType.accepts, hread]
    integer := by simp
    decimal := by simp
    date := by simp }

theorem fits_boolean {n : Nat} : Fits .boolean parameter (if n = 0 then "false" else "true") := by
  split
  · exact ⟨by decide, by decide, by simp, by simp, by simp⟩
  · exact ⟨by decide, by decide, by simp, by simp, by simp⟩

/-- What the generator of a type answers to requests with a parameter. -/
structure Answers (t : ValueType) (parameter : Option String) (answer : Option String) : Prop where
  isSome_iff : answer.isSome = true ↔ Admits t parameter
  fits : ∀ text, answer = some text → Fits t parameter text

theorem Answers.declined {p : String} (ht : largestParameter? t = none) :
    Answers t (some p) none :=
  ⟨by simp [not_admits ht], fun _ h => by cases h⟩

theorem Answers.answered {text : String} (hadmits : Admits t parameter)
    (h : Fits t parameter text) : Answers t parameter (some text) :=
  ⟨by simp [hadmits], fun _ heq => Option.some.inj heq ▸ h⟩

theorem admits_none (t : ValueType) : Admits t none := fun _ h => by cases h

theorem answers_integer (parameter : Option String) (d : Draws) :
    Answers .integer parameter (integer parameter d).1 := by
  have hadmits : Admits .integer parameter ↔
      (bound? defaultInteger maxInteger parameter).isSome = true := admits_iff rfl
  rw [integer]
  split
  · next hnone => exact ⟨by simp [hadmits, hnone], fun _ h => by cases h⟩
  · next largest hsome =>
    refine .answered (hadmits.mpr (by rw [hsome]; rfl)) (fits_integer hsome ?_)
    exact Nat.le_of_lt_succ (Draws.below_lt (Nat.succ_pos largest) d)

theorem answers_decimal (parameter : Option String) (d : Draws) :
    Answers .decimal parameter (decimal parameter d).1 := by
  have hadmits : Admits .decimal parameter ↔
      (bound? defaultDecimal maxDecimal parameter).isSome = true := admits_iff rfl
  rw [decimal]
  split
  · next hnone => exact ⟨by simp [hadmits, hnone], fun _ h => by cases h⟩
  · next largest hsome =>
    refine .answered (hadmits.mpr (by rw [hsome]; rfl)) (fits_decimal hsome ?_ ?_)
    · exact Nat.le_of_lt_succ (Draws.below_lt (Nat.succ_pos largest) d)
    · exact Nat.le_of_lt_succ (Draws.below_lt (Nat.succ_pos decimalFraction) _)

theorem answers_boolean (parameter : Option String) (d : Draws) :
    Answers .boolean parameter (boolean parameter d).1 := by
  cases parameter with
  | none => exact .answered (admits_none _) fits_boolean
  | some p => exact .declined rfl

theorem answers_date (h : IsNumeric parameter) (now : Moment) (d : Draws) :
    Answers .date parameter (date parameter now d).1 := by
  cases parameter with
  | none =>
    have hdays : 0 < dateSpan := by decide
    exact .answered (admits_none _) (fits_date (Draws.below_lt hdays d))
  | some p =>
    rw [date, isNowParameter_of_isNumeric h]
    exact .declined rfl

theorem answers_time (h : IsNumeric parameter) (now : Moment) (d : Draws) :
    Answers .time parameter (time parameter now d).1 := by
  cases parameter with
  | none =>
    have hseconds : 0 < 86400 := by decide
    exact .answered (admits_none _) (fits_time (Draws.below_lt hseconds d))
  | some p =>
    rw [time, isNowParameter_of_isNumeric h]
    exact .declined rfl

/-- Whatever is drawn, what is generated is a value of the type that is named like the generator. -/
theorem answers_resolve {request : KeywordRequest} (ht : request.generator.valueType? = some t)
    (htext : t ≠ .text) (hnumeric : IsNumeric request.parameter) (store : Store)
    (state : StandardState) :
    Answers t request.parameter (Resolver.standard.resolve request store state).1 := by
  obtain ⟨generator, parameter, field⟩ := request
  have htype : generator.valueType? = some t := ht
  cases generator with
  | newId | firstNameMale | firstNameFemale | lastName => cases htype
  | text => exact absurd (Option.some.inj htype).symm htext
  | time =>
    obtain rfl : .time = t := Option.some.inj htype
    exact answers_time hnumeric state.now state.draws
  | date =>
    obtain rfl : .date = t := Option.some.inj htype
    exact answers_date hnumeric state.now state.draws
  | integer =>
    obtain rfl : .integer = t := Option.some.inj htype
    exact answers_integer parameter state.draws
  | decimal =>
    obtain rfl : .decimal = t := Option.some.inj htype
    exact answers_decimal parameter state.draws
  | boolean =>
    obtain rfl : .boolean = t := Option.some.inj htype
    exact answers_boolean parameter state.draws

/-- The largest integer under the largest bound. -/
theorem answers_resolve_largest :
    let request : KeywordRequest := ⟨.integer, some "99999999", .selectedValue⟩
    let state : StandardState := ⟨0, ⟨fun _ => 99999999, 0⟩, ⟨2000, 1, 1⟩, ⟨0, 0, 0⟩⟩
    IsNumeric request.parameter ∧
      (Resolver.standard.resolve request Store.empty state).1 = some "99999999" ∧
      Fits .integer request.parameter "99999999" := by
  intro request state
  have hnumeric : IsNumeric request.parameter := fun p hp => Option.some.inj hp ▸ by decide
  have hanswer : (Resolver.standard.resolve request Store.empty state).1 = some "99999999" := by
    decide
  have htype : request.generator.valueType? = some .integer := by
    change Generator.integer.valueType? = _
    decide
  have hanswers := answers_resolve htype (by decide) hnumeric Store.empty state
  exact ⟨hnumeric, hanswer, hanswers.fits _ hanswer⟩

/-- The sixtieth day is the leap day of the first year. -/
example : (Resolver.standard.resolve ⟨.date, none, .selectedValue⟩ Store.empty
    ⟨0, ⟨fun _ => 59, 0⟩, ⟨2000, 1, 1⟩, ⟨0, 0, 0⟩⟩).1 = some "02/29/1920" := by
  decide

end Standard

end TreeDatabase
