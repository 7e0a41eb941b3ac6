import TreeDatabase.Statement
import TreeDatabase.Store

/-!
# Rulesets

The ruleset of a name stands below the rule node and governs every other node of that name. Values
are checked against it before they are written, and when rules are defined, the definitions are
checked first and then the values of the nodes that exist.
-/

namespace TreeDatabase

/-- A value that a node is about to hold, or holds already. -/
structure PendingWrite where
  name : String
  value : String
  /-- The node that is overwritten, if there is one. -/
  existing : Option NodeId
  deriving DecidableEq, Repr

namespace Ruleset

/-- The ruleset that a definition is about: the selected name below the rule node, and else the
name in front of a selected rule. -/
def target? (s : Statement) : Option String :=
  s.parents.getLast?.bind fun last =>
    if last = Vocabulary.ruleSubtree then some s.selectedName
    else if Vocabulary.isRuleName s.selectedName then some last
    else none

def persisted? (store : Store) (ruleset : String) (kind : RuleKind) : Option String :=
  (store.rulesFor ruleset).lookup kind

/-- The value that a statement gives to a rule: the selected value of the rule itself, or a child
assignment that is not blank. -/
def assigned? (s : Statement) (kind : RuleKind) : Option String :=
  match (if s.selectedName = kind.name then s.selectedValue else none) with
  | some value => some value
  | none => (s.childValue? kind.name).filter (· ≠ "")

/-- The value of a rule while a definition is applied: what the statement gives it, or else the
persisted value, or else blank. -/
def effective (store : Store) (kind : RuleKind) (ruleset : String) (s : Statement) : String :=
  match assigned? s kind with
  | some value => value
  | none => (persisted? store ruleset kind).getD ""

/-- A rule's value, or the default of the rule when it is blank. -/
def orDefault (kind : RuleKind) (value : String) : String :=
  if value = "" then kind.default else value

/-- What is wrong with the value of a rule, under the type and the bounds of its ruleset. Bounds
under an unknown type are left to the rule for the type. -/
def definitionViolation? (kind : RuleKind) (value type max min : String) : Option Violation :=
  match kind with
  | .type => if (ValueType.ofName? value).isSome then none else some .invalidType
  | .max | .min =>
    match ValueType.ofName? type with
    | none => none
    | some t =>
      if !t.acceptsBound value then some (.invalidBound kind value t)
      else if !t.boundsOrdered min max then some .boundsOutOfOrder
      else none
  | .required | .key | .unique =>
    if value = "true" ∨ value = "false" then none else some (.invalidFlag kind value)

/-- Whether a pending value would meet the same value at another node of its name. An unchanged
value meets none, and nodes that are overwritten too count with their new values. -/
def collides (store : Store) (batch : List PendingWrite) (node : PendingWrite) : Bool :=
  let unchanged := (node.existing.bind store.get?).any (·.value == node.value)
  let sameName := batch.filter (·.name == node.name)
  let elsewhere := (store.nodesWithValue node.name node.value).any fun id =>
    !sameName.any (·.existing == some id)
  !unchanged && (elsewhere || 1 < sameName.countP (·.value == node.value))

/-- What is wrong with a value under one rule. For a definition of rules, uniqueness is asked of
the nodes that exist; otherwise of the store as the batch would leave it. -/
def valueViolation? (store : Store) (verb : Verb) (batch : List PendingWrite) (type : ValueType)
    (kind : RuleKind) (rule : String) (node : PendingWrite) : Option Violation :=
  let when (broken : Bool) (v : Violation) : Option Violation := if broken then some v else none
  match kind with
  | .type => when (!type.accepts node.value) (.typeMismatch node.name type)
  | .max =>
    when (node.value != "" && type.compare node.value rule == some .gt) (.aboveMax node.name rule)
  | .min =>
    when (node.value != "" && type.compare node.value rule == some .lt) (.belowMin node.name rule)
  | .required => when (rule == "true" && node.value == "") (.required node.name)
  | .key => when (rule == "true" && node.value == "") (.key node.name)
  | .unique =>
    if rule = "true" ∧ node.value ≠ "" then
      if verb = .enforce then
        when (!store.isUnique node.name node.value) (.notUnique node.name)
      else when (collides store batch node) (.duplicate node.name)
    else none

/-- The rules that a definition sets. A new type has to admit the bounds that are in force, so
these are set with it. -/
def definitions (store : Store) (ruleset : String) (s : Statement) : List (RuleKind × String) :=
  let given : List (RuleKind × String) := match RuleKind.ofName? s.selectedName with
    | some kind => [(kind, s.selectedValue.getD "")]
    | none => (s.children.filter (·.2 ≠ "")).filterMap fun child =>
        (RuleKind.ofName? child.1).map fun kind => (kind, child.2)
  let kinds := given.map Prod.fst
  if kinds.contains .type then
    given ++ (([RuleKind.max, .min].filter (!kinds.contains ·)).map
      fun kind => (kind, effective store kind ruleset s))
  else given

/-- The nodes that a ruleset governs, with the values they hold. -/
def governed (store : Store) (ruleset : String) : List PendingWrite :=
  (store.findByName ruleset false).filterMap fun entry =>
    (store.get? entry.2).map fun node => ⟨ruleset, node.value, some entry.2⟩

/-- For each kind of rule the first node that breaks it, under the values that a definition leaves
in force. -/
def governedViolations (store : Store) (ruleset : String) (s : Statement) (type : ValueType) :
    List Violation :=
  RuleKind.all.filterMap fun kind =>
    (governed store ruleset).findSome?
      (valueViolation? store .enforce [] type kind
        (orDefault kind (effective store kind ruleset s)))

/-- What is wrong with a definition of rules: the definitions themselves, or else the nodes that
exist. -/
def enforceViolations (store : Store) (s : Statement) : List Violation :=
  match target? s with
  | none => []
  | some ruleset =>
    if Vocabulary.isRuleName s.selectedName ∧ !store.rulesetExists ruleset then
      [.rulesetMissing ruleset]
    else
      let type := orDefault .type (effective store .type ruleset s)
      let max := effective store .max ruleset s
      let min := effective store .min ruleset s
      let wrong := ((definitions store ruleset s).filterMap fun d =>
        definitionViolation? d.1 d.2 type max min).eraseDups
      if wrong ≠ [] then wrong
      else
        match ValueType.ofName? type with
        | none => []
        | some t => governedViolations store ruleset s t

/-- What is wrong with one pending value under the ruleset of its name. -/
def pendingViolations (store : Store) (batch : List PendingWrite) (node : PendingWrite) :
    List Violation :=
  let rules := store.rulesFor node.name
  if rules.isEmpty then []
  else
    let type := ((rules.lookup .type).bind ValueType.ofName?).getD .text
    RuleKind.all.filterMap fun kind =>
      valueViolation? store .write batch type kind ((rules.lookup kind).getD kind.default) node

def writeViolations (store : Store) (batch : List PendingWrite) : List Violation :=
  (batch.flatMap (pendingViolations store batch)).eraseDups

end Ruleset

end TreeDatabase
