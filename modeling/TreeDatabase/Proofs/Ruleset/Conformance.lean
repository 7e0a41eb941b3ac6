import TreeDatabase.Proofs.Operation.Enforce

/-!
# Conformance

A node conforms to the ruleset of its name when its value is one that the rules admit and, where
they ask for it, no other node of its name has it. What the checks of writes and definitions find
nothing wrong with is admitted.
-/

namespace TreeDatabase

open Store

namespace Ruleset

/-- The value of a rule for the nodes of a name: that of the node of the rule in the ruleset of the
name, or the default when there is no such node. -/
def ruleFor (s : Store) (name : String) (kind : RuleKind) : String :=
  ((s.ruleset? name).bind fun ruleset => s.valueOf? ruleset kind.name).getD kind.default

/-- The table of rules that is read for a check has these values. -/
theorem ruleFor_eq {s : Store} (h : s.Coherent) {name : String} (hname : isNodeName name = true)
    (kind : RuleKind) : ruleFor s name kind = (persisted? s name kind).getD kind.default := by
  rw [ruleFor, persisted?_eq h hname]

/-- The root, which has no name, is under no rules. -/
theorem ruleFor_blank {s : Store} (h : s.Coherent) (kind : RuleKind) :
    ruleFor s "" kind = kind.default := by
  rw [ruleFor, h.ruleset?_blank]
  rfl

/-- Rules admit a value. -/
structure Admits (rule : RuleKind → String) (value : String) : Prop where
  /-- It is accepted by the type, and within the bounds when it is not blank. -/
  typed : ∃ t, ValueType.ofName? (rule .type) = some t ∧ t.accepts value = true ∧
    (value ≠ "" → t.compare value (rule .max) ≠ some .gt ∧ t.compare value (rule .min) ≠ some .lt)
  required : rule .required = "true" ∨ rule .key = "true" → value ≠ ""

/-- A node conforms to the ruleset of its name. -/
structure Conforms (s : Store) (id : NodeId) (n : Node) : Prop where
  admits : Admits (ruleFor s n.name) n.value
  /-- No other node of the name outside the rule subtree has the value, unless it is blank. -/
  unique : ruleFor s n.name .unique = "true" → n.value ≠ "" → ∀ j m, s.get? j = some m →
    ¬ s.UnderRules j → m.name = n.name → m.value = n.value → j = id

theorem admits_default {rule : RuleKind → String} (h : ∀ kind, rule kind = kind.default)
    (value : String) : Admits rule value where
  typed := by
    refine ⟨.text, by rw [h]; decide, by simp [ValueType.accepts], fun _ => ?_⟩
    have hnone : ValueType.integer? "" = none := by decide
    rw [h, h]
    simp [ValueType.compare, RuleKind.default, hnone]
  required := by
    rw [h, h]
    rintro (h | h) <;> exact absurd h (by decide)

/-- What a check says of each kind of rule, together. The flags of the check may differ from those
of the rules as long as they are raised where these are. -/
theorem admits_of_check {store : Store} {verb : Verb} {batch : List PendingWrite} {t : ValueType}
    {rule checked : RuleKind → String} {node : PendingWrite}
    (hcheck : ∀ kind, valueViolation? store verb batch t kind (checked kind) node = none)
    (htype : ValueType.ofName? (rule .type) = some t) (hmax : rule .max = checked .max)
    (hmin : rule .min = checked .min)
    (hrequired : rule .required = "true" → checked .required = "true")
    (hkey : rule .key = "true" → checked .key = "true") : Admits rule node.value where
  typed := by
    have haccepts := hcheck .type
    have habove := hcheck .max
    have hbelow := hcheck .min
    simp only [valueViolation?, ite_eq_right_iff, reduceCtorEq, imp_false] at haccepts habove hbelow
    refine ⟨t, htype, by simpa using haccepts, fun hne => ?_⟩
    rw [hmax, hmin]
    exact ⟨by simpa [hne] using habove, by simpa [hne] using hbelow⟩
  required := by
    have hr := hcheck .required
    have hk := hcheck .key
    simp only [valueViolation?, ite_eq_right_iff, reduceCtorEq, imp_false] at hr hk
    rintro (h | h)
    · simpa [hrequired h] using hr
    · simpa [hkey h] using hk

/-! ## The check of a write -/

theorem pendingViolations_eq_nil {store : Store} {batch : List PendingWrite}
    (h : writeViolations store batch = []) : ∀ node ∈ batch,
      pendingViolations store batch node = [] :=
  List.flatMap_eq_nil_iff.mp (eq_nil_of_eraseDups h)

/-- A write is checked under the rules of the names that it writes, where there are any. -/
theorem pendingViolations_eq {store : Store} (h : store.Coherent) {batch : List PendingWrite}
    {node : PendingWrite} (hname : isNodeName node.name = true) {t : ValueType}
    (htype : ValueType.ofName? (ruleFor store node.name .type) = some t) :
    pendingViolations store batch node =
      if (store.rulesFor node.name).isEmpty then []
      else RuleKind.all.filterMap fun kind =>
        valueViolation? store .write batch t kind (ruleFor store node.name kind) node := by
  have ht :
      (((store.rulesFor node.name).lookup .type).bind ValueType.ofName?).getD .text = t := by
    rw [ruleFor_eq h hname, persisted?] at htype
    cases hrule : (store.rulesFor node.name).lookup .type with
    | none =>
      rw [hrule] at htype
      have htext : ValueType.ofName? RuleKind.type.default = some .text := by decide
      rw [Option.getD_none, htext] at htype
      exact Option.some_inj.mp htype
    | some v =>
      rw [hrule, Option.getD_some] at htype
      rw [Option.bind_some, htype]
      rfl
  rw [pendingViolations]
  dsimp only
  rw [ht]
  simp only [ruleFor_eq h hname]
  rfl

theorem check_of_pendingViolations {store : Store} (hstore : store.Coherent)
    {batch : List PendingWrite} {node : PendingWrite} (hname : isNodeName node.name = true)
    {t : ValueType} (h : pendingViolations store batch node = [])
    (htype : ValueType.ofName? (ruleFor store node.name .type) = some t) :
    (∀ kind, ruleFor store node.name kind = kind.default) ∨
    ∀ kind, valueViolation? store .write batch t kind (ruleFor store node.name kind) node =
      none := by
  rw [pendingViolations_eq hstore hname htype] at h
  split at h
  · next hempty =>
    left
    intro kind
    rw [ruleFor_eq hstore hname, persisted?, List.isEmpty_iff.mp hempty]
    rfl
  · right
    exact fun kind => List.filterMap_eq_nil_iff.mp h kind (RuleKind.mem_all kind)

theorem collides_of_check {store : Store} {batch : List PendingWrite} {node : PendingWrite}
    {t : ValueType}
    (h : valueViolation? store .write batch t .unique (ruleFor store node.name .unique) node = none)
    (hunique : ruleFor store node.name .unique = "true") (hvalue : node.value ≠ "") :
    collides store batch node = false := by
  rw [hunique] at h
  simpa [valueViolation?, hvalue] using h

/-! ## The check of a definition -/

variable {s : Statement} {store t : Store} {ruleset : String} {ws : List NodeWrite}

theorem mem_definitions_of_assigned (hdefining : s.Defining ruleset)
    (hbad : Statement.isBadRulesetName ruleset = false) {kind : RuleKind} {value : String}
    (h : assigned? s kind = some value) : (kind, value) ∈ definitions store ruleset s := by
  rw [assigned?] at h
  split at h
  · next v hv =>
    cases h
    by_cases hname : s.selectedName = kind.name
    · rw [if_pos hname] at hv
      have hmem : (kind, s.selectedValue.getD "") ∈ definitions store ruleset s :=
        mem_definitions_of_selected hname
      rwa [hv] at hmem
    · rw [if_neg hname] at hv
      cases hv
  · obtain ⟨hlookup, hblank⟩ := Option.filter_eq_some_iff.mp h
    obtain ⟨before, after, hsplit, _⟩ := List.lookup_eq_some_iff.mp hlookup
    have hmem : (kind.name, value) ∈ s.children := by simp [hsplit]
    have hselected : RuleKind.ofName? s.selectedName = none := by
      cases hdefining with
      | ruleset _ name _ =>
        cases hk : RuleKind.ofName? s.selectedName with
        | none => rfl
        | some other =>
          exact absurd (name.symm.trans (RuleKind.name_of_ofName? hk).symm)
            (Statement.ne_kind_of_not_bad hbad other)
      | rule _ _ children =>
        rw [children] at hmem
        cases hmem
    have hgiven : (kind, value) ∈ (s.children.filter (·.2 ≠ "")).filterMap fun child =>
        (RuleKind.ofName? child.1).map fun kind => (kind, child.2) := by
      refine List.mem_filterMap.mpr ⟨_, List.mem_filter.mpr ⟨hmem, hblank⟩, ?_⟩
      rw [RuleKind.ofName?_name]
      rfl
    rw [definitions, hselected]
    dsimp only
    split
    · exact List.mem_append_left _ hgiven
    · exact hgiven

/-- The value that a rule has while a definition is applied, if it has one. -/
def givenOrPersisted (store : Store) (ruleset : String) (s : Statement) (kind : RuleKind) :
    Option String :=
  (assigned? s kind).or (persisted? store ruleset kind)

theorem ruleValue_eq (kind : RuleKind) : s.ruleValue kind (persisted? store ruleset kind) =
    (givenOrPersisted store ruleset s kind).getD kind.default := by
  rw [Statement.ruleValue, givenOrPersisted]
  cases assigned? s kind <;> rfl

theorem effective_eq (kind : RuleKind) :
    effective store kind ruleset s = (givenOrPersisted store ruleset s kind).getD "" := by
  rw [effective, givenOrPersisted]
  cases assigned? s kind <;> rfl

/-- A rule keeps the value under which it was checked, unless this value is blank and stands for a
default that is not. -/
theorem ruleValue_eq_orDefault {kind : RuleKind}
    (h : givenOrPersisted store ruleset s kind ≠ some "" ∨ kind.default = "") :
    s.ruleValue kind (persisted? store ruleset kind) =
      orDefault kind (effective store kind ruleset s) := by
  rw [ruleValue_eq, effective_eq, orDefault]
  cases hgiven : givenOrPersisted store ruleset s kind with
  | none => rfl
  | some v =>
    rw [hgiven] at h
    rw [Option.getD_some, Option.getD_some]
    split
    · next hv => rw [hv, h.resolve_left (fun hne => hne (by rw [hv]))]
    · rfl

/-- A flag that a definition leaves raised was raised when it was checked. -/
theorem orDefault_of_ruleValue {kind : RuleKind}
    (h : s.ruleValue kind (persisted? store ruleset kind) = "true") :
    orDefault kind (effective store kind ruleset s) = "true" := by
  rw [← ruleValue_eq_orDefault, h]
  left
  intro hgiven
  rw [ruleValue_eq, hgiven, Option.getD_some] at h
  exact absurd h (by decide)

/-- The type that a definition leaves is one that there is, and the one it was checked under. -/
theorem type_of_enforced (he : s.Enforced ruleset store t ws) (h : store.Coherent)
    (hstore : ∃ type, ValueType.ofName? (ruleFor store ruleset .type) = some type) :
    ∃ type, ValueType.ofName? (s.ruleValue .type (persisted? store ruleset .type)) = some type ∧
      orDefault .type (effective store .type ruleset s) =
        s.ruleValue .type (persisted? store ruleset .type) := by
  rw [ruleFor_eq h he.name] at hstore
  have htype : ∃ type,
      ValueType.ofName? (s.ruleValue .type (persisted? store ruleset .type)) = some type := by
    rw [Statement.ruleValue]
    cases hassigned : assigned? s .type with
    | some v =>
      have hv := he.checked.definitions _ (mem_definitions_of_assigned he.defining he.bad hassigned)
      simp only [definitionViolation?, ite_eq_left_iff, reduceCtorEq, imp_false, not_not,
        Option.isSome_iff_exists] at hv
      exact hv
    | none => exact hstore
  obtain ⟨type, htype⟩ := htype
  refine ⟨type, htype, (ruleValue_eq_orDefault (.inl fun hgiven => ?_)).symm⟩
  have hnone : ValueType.ofName? "" = none := by decide
  rw [ruleValue_eq, hgiven, Option.getD_some, hnone] at htype
  cases htype

theorem ruleFor_enforced (he : s.Enforced ruleset store t ws) (h : store.Coherent)
    (kind : RuleKind) :
    ruleFor t ruleset kind = s.ruleValue kind (persisted? store ruleset kind) := by
  rw [ruleFor_eq (he.writes.coherent h) he.name, he.values]
  rfl

/-- The nodes of the name of a ruleset outside the rule subtree have values that the rules admit
which a definition leaves, and different ones where the rules ask for it. -/
theorem admits_of_enforced (he : s.Enforced ruleset store t ws) (h : store.Coherent)
    (hstore : ∃ type, ValueType.ofName? (ruleFor store ruleset .type) = some type) {id : NodeId}
    {n : Node} (hn : store.Reached id n) (hname : n.name = ruleset) (hout : ¬ store.UnderRules id) :
    Admits (ruleFor t ruleset) n.value ∧
      (ruleFor t ruleset .unique = "true" → n.value ≠ "" →
        store.isUnique ruleset n.value = true) := by
  have hrule := ruleFor_enforced he h
  obtain ⟨type, htype, hsame⟩ := type_of_enforced he h hstore
  have hgoverned : (⟨ruleset, n.value, some id⟩ : PendingWrite) ∈ governed store ruleset := by
    refine List.mem_filterMap.mpr ⟨(n.path, id), ?_, ?_⟩
    · exact h.mem_findByName_iff.mpr ⟨n, hn, hname, rfl, .inr hout⟩
    · rw [hn.live]
      rfl
  have hcheck : ∀ kind, valueViolation? store .enforce [] type kind
      (orDefault kind (effective store kind ruleset s)) ⟨ruleset, n.value, some id⟩ = none := by
    intro kind
    have hnone := he.checked.governed type (hsame ▸ htype)
    rw [governedViolations, List.filterMap_eq_nil_iff] at hnone
    exact List.findSome?_eq_none_iff.mp (hnone kind (RuleKind.mem_all kind)) _ hgoverned
  refine ⟨admits_of_check hcheck (hrule _ ▸ htype) ?_ ?_ ?_ ?_, ?_⟩
  · rw [hrule]
    exact ruleValue_eq_orDefault (.inr rfl)
  · rw [hrule]
    exact ruleValue_eq_orDefault (.inr rfl)
  · rw [hrule]
    exact orDefault_of_ruleValue
  · rw [hrule]
    exact orDefault_of_ruleValue
  · intro hunique hvalue
    have hnone := hcheck .unique
    rw [hrule] at hunique
    rw [orDefault_of_ruleValue hunique] at hnone
    simpa [valueViolation?, hvalue] using hnone

end Ruleset

end TreeDatabase
