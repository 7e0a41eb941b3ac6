import TreeDatabase.Proofs.Path
import TreeDatabase.Proofs.Statement.Spelling

/-!
# Phrases

A phrase is a reading, a write or a deletion given by its parts. Its text is read as the statement
that has these parts, without a fault.
-/

namespace TreeDatabase

open Token

/-- The parts of a statement, as they are written. A child or a condition is a name, and perhaps a
value. -/
structure Phrase where
  verb : Verb
  /-- The path to the name, the outermost name first. -/
  parents : List String := []
  name : String
  value : Option String := none
  children : List (String × Option String) := []
  conditions : List (String × Option String) := []
  repetitions : Option Nat := none

namespace Phrase

open Statement

def hierarchy (p : Phrase) : List String := p.parents ++ [p.name]

/-! ## Writing a phrase -/

def valueText : Option String → String
  | none => ""
  | some v => " = \"" ++ v ++ "\""

def listText (items : List (String × Option String)) : String :=
  Text.joinWith ", " (items.map fun item => item.1 ++ valueText item.2)

/-- The text behind the verb, up to a condition. -/
def argumentText (p : Phrase) : String :=
  Text.joinWith "." p.hierarchy ++ valueText p.value ++
    if p.children = [] then "" else ": " ++ listText p.children

/-- The text behind the verb, up to a number of repetitions. -/
def requestText (p : Phrase) : String :=
  p.argumentText ++ if p.conditions = [] then "" else " where " ++ listText p.conditions

/-- The text without a number of repetitions. -/
def onceText (p : Phrase) : String := p.verb.name ++ " " ++ p.requestText

def text (p : Phrase) : String :=
  match p.repetitions with
  | none => p.onceText
  | some n => p.onceText ++ " Times " ++ Number.numeral n

/-- The statement that has the parts of a phrase. -/
def statement (p : Phrase) : Statement :=
  { verb := p.verb
    parents := p.parents
    selectedName := p.name
    selectedValue := p.value
    children := p.children.map fun child => (child.1, child.2.getD "")
    filter := p.conditions.foldl (fun filter item => filter.add item.1 item.2) {}
    repetitions := p.repetitions.getD 1
    text := p.text }

/-- What a phrase must be like to be read without a fault: a word for every name, a value that can
stand between quotes, and nothing that its verb does not admit. -/
structure WellFormed (p : Phrase) : Prop where
  verb : p.verb = .read ∨ p.verb = .write ∨ p.verb = .delete
  names : ∀ name ∈ p.hierarchy, PlainWord name
  wildcard : p.hierarchy.count Vocabulary.wildcard ≤ 1
  ruleSubtree : p.hierarchy.count Vocabulary.ruleSubtree ≤ 1
  value : ∀ v ∈ p.value, PlainValue v
  childNames : ∀ child ∈ p.children, PlainWord child.1
  distinct : (p.children.map Prod.fst).Nodup
  childValues : ∀ child ∈ p.children, ∀ v ∈ child.2, PlainValue v
  fields : ∀ item ∈ p.conditions, PlainWord item.1 ∧ '-' ∉ item.1.toList
  accepted : ∀ item ∈ p.conditions, ∀ v ∈ item.2, PlainValue v
  repetitions : ∀ n ∈ p.repetitions, 1 ≤ n ∧ n ≤ 9999999
  read : p.verb = .read → p.value = none ∧ ∀ child ∈ p.children, child.2 = none
  write : p.verb = .write →
    ¬ [Vocabulary.ruleSubtree] <+: p.hierarchy ∧
    ¬ [Vocabulary.root, Vocabulary.ruleSubtree] <+: p.hierarchy ∧
    ∀ name ∈ p.name :: p.children.map Prod.fst,
      Vocabulary.isReserved name = false ∧ name ≠ Vocabulary.root
  delete : p.verb = .delete → p.value = none ∧ p.children = [] ∧
    Vocabulary.isReserved p.name = false ∧ p.name ≠ Vocabulary.root

/-! ## The tokens of a phrase -/

def valueTokens : Option String → List Token
  | none => []
  | some v => [space, equals, space, quoted v '"']

def itemTokens (item : String × Option String) : List Token := word item.1 :: valueTokens item.2

def listTokens (items : List (String × Option String)) : List Token :=
  [comma, space].intercalate (items.map itemTokens)

def pathTokens (names : List String) : List Token :=
  [dot].intercalate (names.map fun name => [word name])

def argumentTokens (p : Phrase) : List Token :=
  pathTokens p.hierarchy ++ valueTokens p.value ++
    if p.children = [] then [] else [colon, space] ++ listTokens p.children

def conditionTokens (p : Phrase) : List Token :=
  if p.conditions = [] then []
  else [space, word Vocabulary.condition, space] ++ listTokens p.conditions

def tokens (p : Phrase) : List Token :=
  word p.verb.name :: space :: (p.argumentTokens ++ p.conditionTokens)

theorem spells_value {cs : List Char} {ts : List Token} (h : Spells cs ts) {value : Option String}
    (hvalue : ∀ v ∈ value, PlainValue v) :
    Spells (cs ++ (valueText value).toList) (ts ++ valueTokens value) := by
  cases value with
  | none =>
    rw [valueText, valueTokens, String.toList_empty, List.append_nil, List.append_nil]
    exact h
  | some v =>
    have hwhole : (valueText (some v)).toList = Joint.value.chars ++ quotedChars v := by
      rw [valueText, String.toList_append, String.toList_append, quotedChars, List.append_assoc]
      rfl
    rw [hwhole]
    exact h.link .value (spells_quoted (hvalue v rfl))

theorem spells_list {items : List (String × Option String)} (hne : items ≠ [])
    (hnames : ∀ item ∈ items, PlainWord item.1)
    (hvalues : ∀ item ∈ items, ∀ v ∈ item.2, PlainValue v) :
    Spells (listText items).toList (listTokens items) := by
  have hitem : ∀ item ∈ items,
      Spells (item.1 ++ valueText item.2).toList (itemTokens item) := by
    intro item hitem
    rw [String.toList_append]
    exact spells_value (hnames item hitem).spells (hvalues item hitem)
  have hwhole : (listText items).toList = Joint.item.chars.intercalate
      (items.map fun item => (item.1 ++ valueText item.2).toList) := by
    rw [listText, Text.joinWith, String.toList_intercalate, List.map_map]
    rfl
  rw [hwhole]
  exact Spells.intercalate .item hne hitem

theorem spells_path {names : List String} (hne : names ≠ [])
    (hnames : ∀ name ∈ names, PlainWord name) :
    Spells (Text.joinWith "." names).toList (pathTokens names) := by
  have hwhole : (Text.joinWith "." names).toList =
      Joint.path.chars.intercalate (names.map String.toList) := by
    rw [Text.joinWith, String.toList_intercalate]
    rfl
  rw [hwhole]
  exact Spells.intercalate .path hne fun name hname => (hnames name hname).spells

variable {p : Phrase}

theorem hierarchy_ne_nil (p : Phrase) : p.hierarchy ≠ [] := by
  simp [hierarchy]

theorem WellFormed.spells_argument (h : p.WellFormed) :
    Spells p.argumentText.toList p.argumentTokens := by
  have hhead := spells_value (spells_path p.hierarchy_ne_nil h.names) h.value
  rw [argumentText, argumentTokens, String.toList_append, String.toList_append]
  split
  · rw [String.toList_empty, List.append_nil, List.append_nil]
    exact hhead
  · next hchildren =>
    rw [String.toList_append]
    exact hhead.link .children (spells_list hchildren h.childNames h.childValues)

theorem WellFormed.spells_request (h : p.WellFormed) :
    Spells p.requestText.toList (p.argumentTokens ++ p.conditionTokens) := by
  have hcondition : Spells Vocabulary.condition.toList [word Vocabulary.condition] :=
    spells_word (by decide) (List.all_eq_true.mp (by decide)) (by decide) (by decide)
  rw [requestText, conditionTokens, String.toList_append]
  split
  · rw [String.toList_empty, List.append_nil, List.append_nil]
    exact h.spells_argument
  · next hconditions =>
    have hlist := spells_list hconditions (fun item hi => (h.fields item hi).1) h.accepted
    have hwhole := h.spells_argument.link .clause (hcondition.link .clause hlist)
    rw [String.toList_append]
    exact hwhole

theorem spells_verb (verb : Verb) : Spells verb.name.toList [word verb.name] := by
  cases verb <;>
    exact spells_word (by decide) (List.all_eq_true.mp (by decide)) (by decide) (by decide)

theorem WellFormed.spells_once (h : p.WellFormed) : Spells p.onceText.toList p.tokens := by
  have hwhole := (spells_verb p.verb).link .clause h.spells_request
  rw [onceText, String.toList_append, String.toList_append, List.append_assoc]
  exact hwhole

end Phrase

end TreeDatabase
