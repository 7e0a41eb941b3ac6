import TreeDatabase.Generator.Standard
import TreeDatabase.Proofs.Path
import TreeDatabase.Statement.Validity

/-!
# What the standard generators answer

Every answer that can name a node has the characters that names in statements have, or it is the
written form of a date, which has slashes. Times and decimals hold a character that no name of a
node has.
-/

namespace TreeDatabase.Standard

open Calendar Number Statement Store

/-! ## Characters of names -/

theorem isValidName_ofList {cs : List Char} (h : ∀ c ∈ cs, isNameChar c = true) :
    isValidName (String.ofList cs) = true := by
  rw [isValidName, String.toList_ofList]
  exact List.all_eq_true.mpr h

theorem isNameChar_of_isDigit {c : Char} (h : c.isDigit = true) : isNameChar c = true := by
  simp [isNameChar, Char.isAlphanum, h]

theorem isValidName_numeral (n : Nat) : isValidName (numeral n) = true := by
  apply isValidName_ofList
  intro c hc
  exact isNameChar_of_isDigit (Nat.isDigit_of_mem_toDigits (by decide) (by decide) hc)

theorem not_isNodeName_of_mem_colon {name : String} (h : ':' ∈ name.toList) :
    isNodeName name ≠ true := by
  intro hname
  exact (isNodeName_iff.mp hname).2.2 h

theorem not_isNodeName_of_mem_dot {name : String} (h : '.' ∈ name.toList) :
    isNodeName name ≠ true := by
  intro hname
  exact (isNodeName_iff.mp hname).2.1 h

/-! ## Answers -/

/-- A name that statements can give, or the written form of a date. -/
def IsNameOrDate (name : String) : Prop :=
  isValidName name = true ∨ ∃ date : Date, name = date.render

/-- An answer is a name or a date if it can name a node at all. -/
def IsNameAnswer (answer : Option String) : Prop :=
  ∀ text, answer = some text → isNodeName text = true → IsNameOrDate text

theorem isNameAnswer_none : IsNameAnswer none := by
  intro text htext
  cases htext

theorem isNameAnswer_of_isValidName {text : String} (h : isValidName text = true) :
    IsNameAnswer (some text) := by
  intro other hother _
  rw [← Option.some.inj hother]
  exact .inl h

theorem isNameAnswer_of_not_isNodeName {text : String} (h : isNodeName text ≠ true) :
    IsNameAnswer (some text) := by
  intro other hother hname
  rw [← Option.some.inj hother] at hname
  exact absurd hname h

theorem isNameAnswer_render (date : Date) : IsNameAnswer (some date.render) := by
  intro other hother _
  exact .inr ⟨date, (Option.some.inj hother).symm⟩

theorem mem_colon_render (time : Clock) : ':' ∈ time.render.toList := by
  rw [Clock.render, String.toList_ofList, Clock.renderChars]
  simp

theorem isNameChar_randomLetters (n : Nat) (d : Draws) :
    ∀ c ∈ (randomLetters n d).1, isNameChar c = true := by
  have hletters : ∀ c ∈ letters, isNameChar c = true :=
    List.all_eq_true.mp (by decide +kernel)
  induction n generalizing d with
  | zero => simp [randomLetters]
  | succ n ih =>
    rw [randomLetters]
    intro c hc
    rcases List.mem_cons.mp hc with rfl | hc
    · rw [List.getD_eq_getElem?_getD]
      cases hletter : letters[(d.below letters.length).1]? with
      | none => decide
      | some letter => exact hletters letter (List.mem_of_getElem? hletter)
    · exact ih _ c hc

theorem isValidName_randomText (n : Nat) (d : Draws) : isValidName (randomText n d).1 = true :=
  isValidName_ofList (isNameChar_randomLetters n d)

theorem isValidName_anyName {names : List String} (h : ∀ name ∈ names, isValidName name = true)
    (d : Draws) : isValidName (anyName names d).1 = true := by
  rw [anyName]
  dsimp only
  rw [List.getD_eq_getElem?_getD]
  cases hname : names[(d.below names.length).1]? with
  | none => decide
  | some name => exact h name (List.mem_of_getElem? hname)

theorem isValidName_unusedName {names : List String} (h : ∀ name ∈ names, isValidName name = true)
    (store : Store) (d : Draws) : isValidName (unusedName names store d).1 = true := by
  rw [unusedName]
  dsimp only
  split
  · next name hfound =>
    have hmem := List.mem_of_find?_eq_some hfound
    rcases List.mem_append.mp hmem with hmem | hmem
    · exact h name (List.mem_of_mem_drop hmem)
    · exact h name (List.mem_of_mem_take hmem)
  · exact isValidName_randomText _ _

theorem isNameAnswer_name {names : List String} (h : ∀ name ∈ names, isValidName name = true)
    (parameter : Option String) (store : Store) (d : Draws) :
    IsNameAnswer (name names parameter store d).1 := by
  cases parameter with
  | none => exact isNameAnswer_of_isValidName (isValidName_anyName h d)
  | some p =>
    unfold name
    dsimp only
    split
    · exact isNameAnswer_of_isValidName (isValidName_unusedName h store d)
    · exact isNameAnswer_none

theorem isNameAnswer_time (parameter : Option String) (now : Moment) (d : Draws) :
    IsNameAnswer (time parameter now d).1 := by
  have hclock : ∀ clock : Clock, IsNameAnswer (some clock.render) := fun clock =>
    isNameAnswer_of_not_isNodeName (not_isNodeName_of_mem_colon (mem_colon_render clock))
  cases parameter with
  | none => exact hclock _
  | some p =>
    unfold time
    dsimp only
    split
    · exact hclock _
    · exact isNameAnswer_none

theorem isNameAnswer_date (parameter : Option String) (now : Moment) (d : Draws) :
    IsNameAnswer (date parameter now d).1 := by
  cases parameter with
  | none => exact isNameAnswer_render _
  | some p =>
    unfold date
    dsimp only
    split
    · exact isNameAnswer_render _
    · exact isNameAnswer_none

theorem isNameAnswer_text (parameter : Option String) (d : Draws) :
    IsNameAnswer (text parameter d).1 := by
  cases parameter with
  | none => exact isNameAnswer_of_isValidName (isValidName_randomText _ _)
  | some p =>
    unfold text
    dsimp only
    split
    · exact isNameAnswer_none
    · exact isNameAnswer_of_isValidName (isValidName_randomText _ _)

theorem isNameAnswer_integer (parameter : Option String) (d : Draws) :
    IsNameAnswer (integer parameter d).1 := by
  rw [integer]
  split
  · exact isNameAnswer_none
  · exact isNameAnswer_of_isValidName (isValidName_numeral _)

theorem isNameAnswer_decimal (parameter : Option String) (d : Draws) :
    IsNameAnswer (decimal parameter d).1 := by
  rw [decimal]
  split
  · exact isNameAnswer_none
  · exact isNameAnswer_of_not_isNodeName (not_isNodeName_of_mem_dot (by simp))

theorem isNameAnswer_boolean (parameter : Option String) (d : Draws) :
    IsNameAnswer (boolean parameter d).1 := by
  cases parameter with
  | none =>
    unfold boolean
    dsimp only
    split
    · exact isNameAnswer_of_isValidName (by decide)
    · exact isNameAnswer_of_isValidName (by decide)
  | some p => exact isNameAnswer_none

theorem isNameAnswer_draw (request : KeywordRequest) (store : Store) (now : Moment) (d : Draws) :
    IsNameAnswer (draw request store now d).1 := by
  rw [draw]
  split
  · exact isNameAnswer_none
  · exact isNameAnswer_name (by decide +kernel) _ store d
  · exact isNameAnswer_name (by decide +kernel) _ store d
  · exact isNameAnswer_name (by decide +kernel) _ store d
  · exact isNameAnswer_time _ now d
  · exact isNameAnswer_date _ now d
  · exact isNameAnswer_integer _ d
  · exact isNameAnswer_decimal _ d
  · exact isNameAnswer_text _ d
  · exact isNameAnswer_boolean _ d

/-- Whatever is drawn, an answer that can name a node is a name or a date. -/
theorem isNameAnswer_resolve (request : KeywordRequest) (store : Store) (state : StandardState) :
    IsNameAnswer (Resolver.standard.resolve request store state).1 := by
  change IsNameAnswer (resolve request store state).1
  rw [resolve]
  split
  · split
    · exact isNameAnswer_of_isValidName (isValidName_numeral _)
    · exact isNameAnswer_none
  · exact isNameAnswer_draw request store state.now state.draws

end TreeDatabase.Standard
