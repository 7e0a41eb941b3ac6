import TreeDatabase.Proofs.Statement.Repetition
import TreeDatabase.Script

/-!
# Dividing scripts

The parts of a script are told here by their places: each reaches from one semicolon that divides,
or from the beginning, to the next one or to the end. The statements of a script are its parts that
are not blank, in order. A statement is not divided again when its text is read as a script, and
nothing is cut off it when it is read as a statement.
-/

namespace TreeDatabase

namespace Script

/-- Whether the character at a place is a semicolon that divides: no backslash stands right before
it. -/
def DividesAt (cs : List Char) (i : Nat) : Prop :=
  cs[i]? = some ';' ∧ (i = 0 ∨ cs[i - 1]? ≠ some '\\')

def Undivided (cs : List Char) : Prop := ∀ i, ¬ DividesAt cs i

theorem DividesAt.lt_length {cs : List Char} {i : Nat} (h : DividesAt cs i) : i < cs.length :=
  (List.getElem?_eq_some_iff.mp h.1).1

theorem dividesAt_append_left {as : List Char} (bs : List Char) {i : Nat} (h : i < as.length) :
    DividesAt (as ++ bs) i ↔ DividesAt as i := by
  have hbefore : i - 1 < as.length := by omega
  simp [DividesAt, List.getElem?_append_left h, List.getElem?_append_left hbefore]

/-- A semicolon divides or not whatever stands before, unless this ends in a backslash. -/
theorem dividesAt_append_right {as : List Char} (h : as.getLast? ≠ some '\\') (bs : List Char)
    (i : Nat) : DividesAt (as ++ bs) (as.length + i) ↔ DividesAt bs i := by
  have hget : ∀ j, (as ++ bs)[as.length + j]? = bs[j]? := by
    intro j
    simp [List.getElem?_append_right]
  cases i with
  | zero =>
    have hbefore : as.length = 0 ∨ (as ++ bs)[as.length - 1]? ≠ some '\\' := by
      rcases as.length.eq_zero_or_pos with hzero | hpos
      · exact .inl hzero
      · rw [List.getElem?_append_left (by omega), ← List.getLast?_eq_getElem?]
        exact .inr h
    rw [DividesAt, DividesAt, hget]
    simpa using fun _ => hbefore
  | succ i =>
    have hnext : as.length + (i + 1) - 1 = as.length + i := by omega
    simp [DividesAt, hget, hnext]

theorem dividesAt_semicolon {as : List Char} (h : as.getLast? ≠ some '\\') (bs : List Char) :
    DividesAt (as ++ ';' :: bs) as.length :=
  (dividesAt_append_right h _ 0).mpr ⟨rfl, .inl rfl⟩

/-- Before a semicolon of an undivided text there is a backslash. -/
theorem Undivided.getLast? {as bs : List Char} (h : Undivided (as ++ ';' :: bs)) :
    as.getLast? = some '\\' :=
  Classical.byContradiction fun hlast => h as.length (dividesAt_semicolon hlast bs)

theorem Undivided.of_append {as bs : List Char} (h : Undivided (as ++ bs)) : Undivided as :=
  fun i hi => h i ((dividesAt_append_left bs hi.lt_length).mpr hi)

theorem Undivided.of_append_right {as bs : List Char} (h : Undivided (as ++ bs))
    (hlast : as.getLast? ≠ some '\\') : Undivided bs :=
  fun i hi => h (as.length + i) ((dividesAt_append_right hlast bs i).mpr hi)

/-! ## Division by division -/

/-- A text that is divided is so at a first place. -/
theorem exists_first_division {cs : List Char} (h : ¬ Undivided cs) :
    ∃ as bs, cs = as ++ ';' :: bs ∧ Undivided as ∧ as.getLast? ≠ some '\\' := by
  classical
  have hexists : ∃ i, DividesAt cs i := by simpa [Undivided] using h
  obtain ⟨hsemicolon, hbefore⟩ := Nat.find_spec hexists
  have hmin : ∀ j < Nat.find hexists, ¬ DividesAt cs j := fun j hj => Nat.find_min hexists hj
  generalize Nat.find hexists = i at hsemicolon hbefore hmin
  obtain ⟨hi, hget⟩ := List.getElem?_eq_some_iff.mp hsemicolon
  refine ⟨cs.take i, cs.drop (i + 1), ?_, ?_, ?_⟩
  · rw [← hget, ← List.drop_eq_getElem_cons hi, List.take_append_drop]
  · intro j hj
    have hlt : j < i := by simpa [hi.le] using hj.lt_length
    apply hmin j hlt
    rw [← List.take_append_drop i cs]
    exact (dividesAt_append_left _ hj.lt_length).mpr hj
  · rw [List.getLast?_take]
    split
    · simp
    · next hne => simpa [List.getElem?_eq_getElem (by omega : i - 1 < cs.length), hne] using hbefore

/-- What holds of undivided texts, and of a text when it holds of what follows its first division,
holds of all. -/
theorem division_induction {motive : List Char → Prop}
    (undivided : ∀ cs, Undivided cs → motive cs)
    (divided : ∀ as bs, Undivided as → as.getLast? ≠ some '\\' → motive bs →
      motive (as ++ ';' :: bs)) (cs : List Char) : motive cs := by
  induction hn : cs.length using Nat.strong_induction_on generalizing cs with
  | _ n ih =>
    by_cases h : Undivided cs
    · exact undivided cs h
    · obtain ⟨as, bs, rfl, has, hlast⟩ := exists_first_division h
      refine divided as bs has hlast (ih bs.length ?_ bs rfl)
      simp at hn
      omega

/-! ## Parts -/

theorem parts_ne_nil (previous : Option Char) (cs : List Char) : parts previous cs ≠ [] := by
  cases cs with
  | nil => simp [parts]
  | cons c cs =>
    rw [parts]
    split
    · simp
    · split <;> simp

/-- Only a backslash in front makes a difference. -/
theorem parts_of_ne {previous : Option Char} (h : previous ≠ some '\\') (cs : List Char) :
    parts previous cs = parts none cs := by
  cases cs <;> simp [parts, h]

theorem parts_append_semicolon {previous : Option Char} {as : List Char}
    (h : (previous.toList ++ as).getLast? ≠ some '\\') (bs : List Char) :
    parts previous (as ++ ';' :: bs) = parts previous as ++ parts none bs := by
  induction as generalizing previous with
  | nil =>
    have hprevious : previous ≠ some '\\' := by
      rintro rfl
      exact h rfl
    simp [parts, hprevious, parts_of_ne]
  | cons a as ih =>
    have hlast : ((some a).toList ++ as).getLast? ≠ some '\\' := by
      rwa [List.getLast?_append_cons] at h
    rw [List.cons_append, parts, parts, ih hlast]
    cases hparts : parts (some a) as with
    | nil => exact absurd hparts (parts_ne_nil _ _)
    | cons part rest => split <;> rfl

theorem parts_eq_singleton {previous : Option Char} {cs : List Char}
    (h : ∀ as bs, cs = as ++ ';' :: bs → (previous.toList ++ as).getLast? = some '\\') :
    parts previous cs = [cs] := by
  induction cs generalizing previous with
  | nil => rfl
  | cons c cs ih =>
    have hc : ¬ (c = ';' ∧ previous ≠ some '\\') := by
      rintro ⟨rfl, hprevious⟩
      have hlast := h [] cs rfl
      cases previous with
      | none => simp at hlast
      | some p => exact hprevious (by simpa using hlast)
    have hrest : parts (some c) cs = [cs] := by
      refine ih fun as bs hcs => ?_
      have hlast := h (c :: as) bs (by simp [hcs])
      rwa [List.getLast?_append_cons] at hlast
    rw [parts, if_neg hc, hrest]

theorem parts_of_undivided {cs : List Char} (h : Undivided cs) : parts none cs = [cs] :=
  parts_eq_singleton fun _ _ hcs => (hcs ▸ h).getLast?

theorem parts_append_division {as : List Char} (hlast : as.getLast? ≠ some '\\')
    (bs : List Char) : parts none (as ++ ';' :: bs) = parts none as ++ parts none bs :=
  parts_append_semicolon (by simpa using hlast) bs

theorem parts_of_division {as : List Char} (has : Undivided as) (hlast : as.getLast? ≠ some '\\')
    (bs : List Char) : parts none (as ++ ';' :: bs) = as :: parts none bs := by
  rw [parts_append_division hlast, parts_of_undivided has]
  rfl

/-! ## The places of parts -/

/-- A stretch of a text with no semicolon in it that divides, from one that does, or the beginning,
to the next one, or the end. -/
structure IsPart (cs : List Char) (start stop : Nat) : Prop where
  le : start ≤ stop
  within : stop ≤ cs.length
  opens : start = 0 ∨ DividesAt cs (start - 1)
  closes : stop = cs.length ∨ DividesAt cs stop
  whole : ∀ i, start ≤ i → i < stop → ¬ DividesAt cs i

/-- Parts do not overlap. -/
theorem IsPart.eq_of_le {cs : List Char} {a b start stop : Nat} (h : IsPart cs a b)
    (hpart : IsPart cs start stop) (hle : a ≤ start) (hlt : start ≤ b) : start = a ∧ stop = b := by
  have hstart : start = a := by
    rcases hpart.opens with hzero | hopen
    · omega
    · by_contra hne
      exact h.whole (start - 1) (by omega) (by omega) hopen
  have hge : b ≤ stop := by
    rcases hpart.closes with hend | hclose
    · have := h.within
      omega
    · exact Nat.le_of_not_lt fun hstop => h.whole stop (hle.trans hpart.le) hstop hclose
  have hstop : stop ≤ b := by
    rcases h.closes with hend | hclose
    · have := hpart.within
      omega
    · exact Nat.le_of_not_lt fun hstop => hpart.whole b hlt hstop hclose
  exact ⟨hstart, Nat.le_antisymm hstop hge⟩

/-- The statement in a stretch of a text, unless the stretch is blank. -/
def statementAt? (cs : List Char) (start stop : Nat) : Option ScriptStatement :=
  let part := (cs.take stop).drop start
  if part.all Text.isBlank then none
  else
    some ⟨String.ofList (Text.trimChars part),
      1 + countLines (cs.take (start + (part.takeWhile Text.isBlank).length))⟩

/-- Where parts stand that follow each other with one character between two of them. -/
def placesFrom : (start : Nat) → List (List Char) → List (Nat × Nat)
  | _, [] => []
  | start, part :: rest =>
    (start, start + part.length) :: placesFrom (start + part.length + 1) rest

theorem le_of_mem_placesFrom {start : Nat} {ps : List (List Char)} {place : Nat × Nat}
    (h : place ∈ placesFrom start ps) : start ≤ place.1 := by
  induction ps generalizing start with
  | nil => simp [placesFrom] at h
  | cons part rest ih =>
    rcases List.mem_cons.mp h with rfl | h
    · exact Nat.le_refl _
    · have := ih h
      omega

theorem pairwise_placesFrom (start : Nat) (ps : List (List Char)) :
    (placesFrom start ps).Pairwise fun p q => p.2 < q.1 := by
  induction ps generalizing start with
  | nil => simp [placesFrom]
  | cons part rest ih =>
    refine List.pairwise_cons.mpr ⟨fun place hplace => ?_, ih _⟩
    have := le_of_mem_placesFrom hplace
    dsimp only
    omega

/-- Where the part begins that follows a division. -/
theorem length_passed (before as : List Char) :
    (before ++ as ++ [';']).length = before.length + as.length + 1 := by
  simp [Nat.add_assoc]

theorem passed_append (before as bs : List Char) :
    before ++ as ++ [';'] ++ bs = before ++ (as ++ ';' :: bs) := by
  simp

/-- What stands in front of a part: nothing, or what ends in a semicolon that divides. -/
def Opens (before : List Char) : Prop :=
  before = [] ∨ ∃ as, before = as ++ [';'] ∧ as.getLast? ≠ some '\\'

section Opens

variable {before : List Char}

theorem opens_append_semicolon {as : List Char} (hopen : Opens before)
    (hlast : as.getLast? ≠ some '\\') : Opens (before ++ as ++ [';']) := by
  refine .inr ⟨before ++ as, rfl, ?_⟩
  rw [List.getLast?_append]
  cases as with
  | nil => rcases hopen with rfl | ⟨b, rfl, -⟩ <;> simp
  | cons a as => simpa using hlast

theorem Opens.getLast? (h : Opens before) : before.getLast? ≠ some '\\' := by
  rcases h with rfl | ⟨as, rfl, -⟩ <;> simp

theorem Opens.dividesAt (h : Opens before) (rest : List Char) :
    before.length = 0 ∨ DividesAt (before ++ rest) (before.length - 1) := by
  rcases h with rfl | ⟨as, rfl, hlast⟩
  · exact .inl rfl
  · right
    simpa using dividesAt_semicolon hlast rest

/-- In front of the first division behind a place, nothing divides. -/
theorem not_dividesAt_of_opens {as : List Char} (h : Opens before) (has : Undivided as)
    (rest : List Char) {i : Nat} (hle : before.length ≤ i) (hlt : i < before.length + as.length) :
    ¬ DividesAt (before ++ (as ++ rest)) i := by
  obtain ⟨j, rfl⟩ := Nat.exists_eq_add_of_le hle
  rw [dividesAt_append_right h.getLast?, dividesAt_append_left rest (by omega)]
  exact has j

/-- The parts behind a place where one begins. -/
theorem mem_placesFrom_iff {rest : List Char} (h : Opens before) {start stop : Nat} :
    (start, stop) ∈ placesFrom before.length (parts none rest) ↔
      before.length ≤ start ∧ IsPart (before ++ rest) start stop := by
  induction rest using division_induction generalizing before with
  | undivided cs hcs =>
    have hpart : IsPart (before ++ cs) before.length (before.length + cs.length) := by
      refine ⟨by omega, by simp, h.dividesAt cs, .inl (by simp), fun i hle hlt => ?_⟩
      simpa using not_dividesAt_of_opens h hcs [] hle hlt
    rw [parts_of_undivided hcs]
    simp only [placesFrom, List.mem_singleton, Prod.mk.injEq]
    constructor
    · rintro ⟨rfl, rfl⟩
      exact ⟨Nat.le_refl _, hpart⟩
    · rintro ⟨hle, hother⟩
      have hlt := hother.le.trans hother.within
      exact hpart.eq_of_le hother hle (by simpa using hlt)
  | divided as bs has hlast ih =>
    have hpart : IsPart (before ++ (as ++ ';' :: bs)) before.length
        (before.length + as.length) := by
      refine ⟨by omega, by simp, h.dividesAt _, .inr ?_, fun i hle hlt => ?_⟩
      · exact (dividesAt_append_right h.getLast? _ _).mpr (dividesAt_semicolon hlast bs)
      · exact not_dividesAt_of_opens h has _ hle hlt
    have hlater := ih (opens_append_semicolon h hlast)
    rw [length_passed, passed_append] at hlater
    rw [parts_of_division has hlast, placesFrom, List.mem_cons, hlater, Prod.mk.injEq]
    constructor
    · rintro (⟨rfl, rfl⟩ | ⟨hle, hother⟩)
      · exact ⟨Nat.le_refl _, hpart⟩
      · exact ⟨by omega, hother⟩
    · rintro ⟨hle, hother⟩
      rcases Nat.lt_or_ge (before.length + as.length) start with hlt | hge
      · exact .inr ⟨hlt, hother⟩
      · exact .inl (hpart.eq_of_le hother hle hge)

end Opens

/-! ## Statements -/

theorem countLines_append (as bs : List Char) :
    countLines (as ++ bs) = countLines as + countLines bs := List.count_append

/-- The statement in a part that is given with what stands around it. -/
theorem statementAt?_append (before part after : List Char) :
    statementAt? (before ++ (part ++ after)) before.length (before.length + part.length) =
      if Text.trimChars part = [] then none
      else
        some ⟨String.ofList (Text.trimChars part),
          1 + countLines before + countLines (part.takeWhile Text.isBlank)⟩ := by
  have hpart : ((before ++ (part ++ after)).take (before.length + part.length)).drop
      before.length = part := by
    simp [List.take_append]
  have hblank : part.all Text.isBlank = true ↔ Text.trimChars part = [] := by
    rw [Text.trimChars, Text.trimBy_eq_nil_iff, List.all_eq_true]
  have hfront : (before ++ (part ++ after)).take
      (before.length + (part.takeWhile Text.isBlank).length) =
        before ++ part.takeWhile Text.isBlank := by
    have hprefix : part.takeWhile Text.isBlank <+: part ++ after :=
      (List.takeWhile_prefix _).trans (List.prefix_append _ _)
    rw [List.take_length_add_append, ← List.prefix_iff_eq_take.mp hprefix]
  simp only [statementAt?, hpart, hfront, hblank, countLines_append, Nat.add_assoc]

/-- Statements are numbered by the lines in front of their parts. -/
theorem number_parts (before rest : List Char) :
    number (1 + countLines before) (parts none rest) =
      (placesFrom before.length (parts none rest)).filterMap
        fun place => statementAt? (before ++ rest) place.1 place.2 := by
  induction rest using division_induction generalizing before with
  | undivided cs hcs =>
    have hstatement := statementAt?_append before cs []
    rw [List.append_nil] at hstatement
    rw [parts_of_undivided hcs]
    simp only [number, placesFrom, List.filterMap_cons, List.filterMap_nil, hstatement]
    split <;> rfl
  | divided as bs has hlast ih =>
    have hlater := ih (before ++ as ++ [';'])
    have hlines : 1 + countLines (before ++ as ++ [';']) =
        1 + countLines before + countLines as := by
      simp [countLines, Nat.add_assoc]
    rw [length_passed, passed_append, hlines] at hlater
    rw [parts_of_division has hlast]
    simp only [number, placesFrom, List.filterMap_cons, statementAt?_append, hlater]
    split <;> rfl

/-- A part that is read as a script is its only statement, on the first line if it is trimmed. -/
theorem split_of_undivided {text : String} (h : Undivided text.toList)
    (htrim : Text.trimChars text.toList = text.toList) (hne : text.toList ≠ []) :
    split text = [⟨text, 1⟩] := by
  have hfirst : text.toList.takeWhile Text.isBlank = [] := by
    obtain ⟨hhead, -⟩ := Text.trimBy_eq_self_iff.mp htrim
    cases hcs : text.toList with
    | nil => rfl
    | cons c cs => simp [hhead c (by simp [hcs])]
  simp [split, parts_of_undivided h, number, htrim, hne, hfirst, countLines]

theorem undivided_of_mem_parts {cs part : List Char} (h : part ∈ parts none cs) :
    Undivided part := by
  induction cs using division_induction with
  | undivided cs hcs =>
    rw [parts_of_undivided hcs, List.mem_singleton] at h
    exact h ▸ hcs
  | divided as bs has hlast ih =>
    rw [parts_of_division has hlast, List.mem_cons] at h
    exact h.elim (· ▸ has) ih

/-- The texts of the statements in parts. -/
def texts (ps : List (List Char)) : List String :=
  ((ps.map Text.trimChars).filter (· ≠ [])).map String.ofList

theorem map_text_number (line : Nat) (ps : List (List Char)) :
    (number line ps).map ScriptStatement.text = texts ps := by
  induction ps generalizing line with
  | nil => rfl
  | cons part rest ih =>
    rw [texts] at ih ⊢
    by_cases hblank : Text.trimChars part = [] <;> simp [number, hblank, ih]

theorem map_text_split (text : String) :
    (split text).map ScriptStatement.text = texts (parts none text.toList) :=
  map_text_number 1 _

/-- What is trimmed off an undivided text does not divide it. -/
theorem undivided_trimChars {cs : List Char} (h : Undivided cs) :
    Undivided (Text.trimChars cs) := by
  obtain ⟨after, hafter, -⟩ := Text.dropEndWhile_append_dropped Text.isBlank
    (cs.dropWhile Text.isBlank)
  have hbefore : (cs.takeWhile Text.isBlank).getLast? ≠ some '\\' := by
    intro hlast
    have hblank : Text.isBlank '\\' = true :=
      List.mem_takeWhile_imp (List.mem_of_getLast? hlast)
    exact absurd hblank (by decide)
  rw [← List.takeWhile_append_dropWhile (p := Text.isBlank) (l := cs)] at h
  have hrest := h.of_append_right hbefore
  rw [hafter] at hrest
  exact hrest.of_append

/-- The text of a statement is trimmed, not blank and not divided. -/
theorem undivided_of_mem_split {text : String} {s : ScriptStatement} (h : s ∈ split text) :
    Undivided s.text.toList ∧ Text.trimChars s.text.toList = s.text.toList ∧
      s.text.toList ≠ [] := by
  have htext := List.mem_map_of_mem (f := ScriptStatement.text) h
  rw [map_text_split, texts] at htext
  obtain ⟨trimmed, hmem, hs⟩ := List.mem_map.mp htext
  obtain ⟨hmem, hne⟩ := List.mem_filter.mp hmem
  obtain ⟨part, hpart, rfl⟩ := List.mem_map.mp hmem
  rw [← hs, String.toList_ofList]
  exact ⟨undivided_trimChars (undivided_of_mem_parts hpart), Text.trimBy_trimBy _ _,
    by simpa using hne⟩

/-- An undivided text has no terminator. -/
theorem stripTerminator_of_undivided {cs : List Char} (h : Undivided cs) :
    Statement.stripTerminator cs = cs := by
  apply Statement.stripTerminator_eq_self
  rintro ⟨hsemicolon, hbackslash⟩
  obtain ⟨before, rfl⟩ := List.getLast?_eq_some_iff.mp hsemicolon
  rw [List.dropLast_concat] at hbackslash
  exact hbackslash h.getLast?

/-- The statements of a script are the parts between its semicolons that divide, in order, without
those that are blank. Each is trimmed and has the number of the line on which its first character
that is not blank stands. It is no longer divided, and it is read as a whole. -/
theorem split_eq_statements (text : String) :
    (∃ places : List (Nat × Nat), places.Pairwise (fun p q => p.2 < q.1) ∧
      (∀ start stop, (start, stop) ∈ places ↔ IsPart text.toList start stop) ∧
      split text = places.filterMap fun place => statementAt? text.toList place.1 place.2) ∧
    ∀ s ∈ split text, split s.text = [⟨s.text, 1⟩] ∧ (Statement.parse s.text).text = s.text ∧
      Statement.stripTerminator s.text.toList = s.text.toList := by
  constructor
  · refine ⟨placesFrom 0 (parts none text.toList), pairwise_placesFrom _ _, fun start stop => ?_,
      number_parts [] text.toList⟩
    have hopen : Opens [] := .inl rfl
    simpa using mem_placesFrom_iff hopen
  · intro s hs
    obtain ⟨hundivided, htrim, hne⟩ := undivided_of_mem_split hs
    have hstrip := stripTerminator_of_undivided hundivided
    refine ⟨split_of_undivided hundivided htrim hne, ?_, hstrip⟩
    rw [Statement.text_parse, Statement.body, htrim, hstrip, String.ofList_toList]

/-- A statement with an escaped semicolon, behind a blank part and on the third line. -/
theorem split_eq_statements_escaped :
    ⟨"write a = 'x\\;y'", 3⟩ ∈ split "\n ;\nwrite a = 'x\\;y'; read a" ∧
      split "write a = 'x\\;y'" = [⟨"write a = 'x\\;y'", 1⟩] ∧
      (Statement.parse "write a = 'x\\;y'").text = "write a = 'x\\;y'" := by
  have hmem : ⟨"write a = 'x\\;y'", 3⟩ ∈ split "\n ;\nwrite a = 'x\\;y'; read a" := by decide
  obtain ⟨hagain, hread, -⟩ := (split_eq_statements "\n ;\nwrite a = 'x\\;y'; read a").2 _ hmem
  exact ⟨hmem, hagain, hread⟩

end Script

end TreeDatabase
