import TreeDatabase.Statement
import TreeDatabase.Token

/-!
# Arguments

An argument is a dotted path, perhaps a value for its last name after an equals sign, and perhaps
a list of children after a colon. A name or value that is exactly a generator keyword, or a
keyword with one parameter, is a keyword site.
-/

namespace TreeDatabase

open Token

/-- The keyword site that tokens make up in a field. A keyword without a parameter counts only in
its canonical spelling. -/
def KeywordSite.ofTokens? (field : Field) (ts : List Token) : Option KeywordSite :=
  match trimSpaces ts with
  | [keyword g raw ordinal] =>
    if raw = g.name then some ⟨g, none, field, ordinal⟩ else none
  | [keyword g _ ordinal, space, parameter] =>
    if parameter.isIdentifier then some ⟨g, some parameter.text, field, ordinal⟩ else none
  | _ => none

/-- The children that an argument lists, with their keyword sites and faults. -/
structure Children where
  entries : List (String × String) := []
  sites : List KeywordSite := []
  faults : List Fault := []
  deriving DecidableEq, Repr

namespace Children

/-- Reads items of which `index` came before, with the names in `plain` among them that no keyword
fills. A name that a keyword fills may occur again, since each keyword makes a name of its own. -/
def ofItems : (index : Nat) → (plain : List String) → List (List Token) → Children
  | _, _, [] => {}
  | index, plain, item :: items =>
    let parts := Text.cutAt (· == equals) item
    let name := joinText parts.1
    let nameSite := KeywordSite.ofTokens? (.childName index) parts.1
    let valueSite := parts.2.bind (KeywordSite.ofTokens? (.childValue index))
    let repeated := nameSite.isNone && plain.contains name
    let rest := ofItems (index + 1) (if nameSite.isNone then plain ++ [name] else plain) items
    { entries := (name, (parts.2.map joinText).getD "") :: rest.entries
      sites := nameSite.toList ++ valueSite.toList ++ rest.sites
      faults := (if name = "" then [.emptyChildName] else []) ++
        (if repeated then [.duplicateChildren] else []) ++ rest.faults }

/-- Reads the items between commas, of which blank ones do not count. -/
def ofTokens (ts : List Token) : Children :=
  ofItems 0 [] (((Text.pieces (· == comma) ts).map trimSpaces).filter (· ≠ []))

end Children

/-- The path of an argument, with the names in front of the last one apart. -/
structure Argument where
  parents : List String
  selectedName : String
  selectedValue : Option String
  children : Children
  nameSite : Option KeywordSite
  valueSite : Option KeywordSite
  faults : List Fault
  deriving DecidableEq, Repr

namespace Argument

def ofTokens (ts : List Token) : Argument :=
  let whole := Text.cutAt (· == colon) ts
  let parts := Text.cutAt (· == equals) whole.1
  let names := (Text.pieces (· == dot) parts.1).map joinText
  { parents := names.dropLast
    selectedName := names.getLast?.getD ""
    selectedValue := parts.2.map joinText
    children := (whole.2.map Children.ofTokens).getD {}
    nameSite := KeywordSite.ofTokens? .selectedName (Text.afterLast (· == dot) parts.1)
    valueSite := parts.2.bind (KeywordSite.ofTokens? .selectedValue)
    faults := if 1 < names.length ∧ names.contains "" then [.emptyPathName (joinText parts.1)]
      else [] }

/-- All keyword sites: those of the selected name and value, then those of the children. -/
def sites (a : Argument) : List KeywordSite :=
  a.nameSite.toList ++ a.valueSite.toList ++ a.children.sites

end Argument

/-- A statement with the parts and faults of an argument. -/
def Statement.withArgument (s : Statement) (a : Argument) : Statement :=
  { s with
    parents := a.parents
    selectedName := a.selectedName
    selectedValue := a.selectedValue
    children := a.children.entries
    sites := a.sites }.addFaults (a.faults ++ a.children.faults)

end TreeDatabase
