import TreeDatabase.Proofs.Engine.Writing
import TreeDatabase.Proofs.Ruleset.Definition

/-!
# Executed definitions

A definition of rules that would break nothing leaves a ruleset with the six rules that were
checked, and changes nothing else. One that would break something changes nothing at all.
-/

namespace TreeDatabase

open Ruleset Store

namespace Store

variable {s t : Store}

/-- The names and values of the children of a node. -/
def valuesBelow (s : Store) (id : NodeId) : List (String × String) :=
  ((s.children id).filterMap s.get?).map fun n => (n.name, n.value)

theorem Coherent.mem_valuesBelow_iff (h : Coherent s) {id : NodeId} {name value : String} :
    (name, value) ∈ s.valuesBelow id ↔ s.valueOf? id name = some value := by
  rw [valuesBelow, List.mem_map]
  constructor
  · rintro ⟨m, hm, heq⟩
    obtain ⟨rfl, rfl⟩ := Prod.mk.inj heq
    obtain ⟨c, hc, hm⟩ := List.mem_filterMap.mp hm
    obtain ⟨n, hn, hmem⟩ := mem_children_iff.mp hc
    exact valueOf?_of_child? (h.child?_iff.mpr ⟨n, m, hn, hmem, hm, rfl⟩) hm
  · intro hvalue
    obtain ⟨m, hm, rfl⟩ := Option.map_eq_some_iff.mp hvalue
    obtain ⟨c, hc, hm⟩ := Option.bind_eq_some_iff.mp hm
    obtain ⟨n, m', hn, hmem, hm', hname⟩ := h.child?_iff.mp hc
    rw [hm] at hm'
    cases hm'
    exact ⟨m, List.mem_filterMap.mpr ⟨c, mem_children_iff.mpr ⟨n, hn, hmem⟩, hm⟩, by rw [hname]⟩

/-- The children of a node have different names. -/
theorem Coherent.nodup_valuesBelow (h : Coherent s) (id : NodeId) : (s.valuesBelow id).Nodup := by
  rw [valuesBelow]
  refine List.Nodup.of_map Prod.fst ?_
  rw [List.map_map, List.Nodup, List.pairwise_map, List.pairwise_filterMap]
  refine (h.nodup_children id).imp_of_mem fun {a b} ha hb hne m hm k hk hname => hne ?_
  obtain ⟨n, hn, hmem⟩ := mem_children_iff.mp ha
  rw [children_of_get? hn] at hb
  exact h.sibling_inj hn hmem hb hm hk hname

end Store

/-! ## What a definition changes -/

/-- One store is another with the definition of a ruleset. -/
structure Statement.Defines (ruleset : String) (rule : RuleKind → String) (s t : Store) :
    Prop where
  /-- The ruleset has just the six rules, with their values. -/
  rules : ∃ id, t.ruleset? ruleset = some id ∧
    (t.valuesBelow id).Perm (RuleKind.all.map fun kind => (kind.name, rule kind))
  /-- Of the rules that it had only the values differ. -/
  valued : ∀ kind id n, s.Leads [Vocabulary.ruleSubtree, ruleset, kind.name] id →
    s.get? id = some n → t.get? id = some { n with value := rule kind }
  /-- The nodes above them have at most new children. -/
  grown : ∀ names id n, names <+: [Vocabulary.ruleSubtree, ruleset] → s.Leads names id →
    s.get? id = some n → ∃ m, t.get? id = some m ∧ m = { n with children := m.children } ∧
      n.children <+: m.children ∧ ∀ c ∈ m.children, c ∈ n.children ∨ s.get? c = none ∧
        ∃ name, t.Leads (names ++ [name]) c ∧ InDefinition ruleset (names ++ [name])
  elsewhere : SameAt (fun names => names ≠ [] ∧ ¬ InDefinition ruleset names) s t

namespace Statement.Enforced

variable {statement : Statement} {ruleset : String} {s t : Store} {ws : List NodeWrite}

theorem perm_rules (he : statement.Enforced ruleset s t ws) (h : s.Coherent)
    (hd : t.RulesDefined) : ∃ id, t.ruleset? ruleset = some id ∧ (t.valuesBelow id).Perm
      (RuleKind.all.map fun kind => (kind.name, ruleFor t ruleset kind)) := by
  have ht := he.writes.coherent h
  obtain ⟨id, hid, _⟩ : ∃ id, t.ruleset? ruleset = some id ∧ _ := by
    have htype := he.values .type
    rw [persisted?_eq ht he.name] at htype
    exact Option.bind_eq_some_iff.mp htype
  have hvalues : ∀ kind : RuleKind, t.valueOf? id kind.name = some (ruleFor t ruleset kind) := by
    intro kind
    have hkind := he.values kind
    rw [persisted?_eq ht he.name, hid, Option.bind_some] at hkind
    rw [ruleFor, hid, Option.bind_some, hkind]
    rfl
  have hnames : (RuleKind.all.map RuleKind.name).Nodup := by decide
  have hnodup : (RuleKind.all.map fun kind => (kind.name, ruleFor t ruleset kind)).Nodup :=
    .of_map Prod.fst (by rw [List.map_map]; exact hnames)
  refine ⟨id, hid, (List.perm_ext_iff_of_nodup (ht.nodup_valuesBelow id) hnodup).mpr ?_⟩
  rintro ⟨name, value⟩
  rw [ht.mem_valuesBelow_iff, List.mem_map]
  constructor
  · intro hvalue
    obtain ⟨_, hm, _⟩ := Option.map_eq_some_iff.mp hvalue
    obtain ⟨c, hc, _⟩ := Option.bind_eq_some_iff.mp hm
    have hl : t.Leads ([Vocabulary.ruleSubtree, ruleset] ++ [name]) c :=
      ht.leads_child_iff.mpr ⟨id, ht.leads_ruleset_iff.mpr hid, hc⟩
    obtain ⟨kind, rfl⟩ := Vocabulary.exists_kind_of_isRuleName (hd.members hl)
    rw [hvalues] at hvalue
    exact ⟨kind, RuleKind.mem_all kind, by rw [Option.some.inj hvalue]⟩
  · rintro ⟨kind, _, heq⟩
    obtain ⟨rfl, rfl⟩ := Prod.mk.inj heq
    exact hvalues kind

/-- Of a rule that was there before only the value differs. -/
theorem valued (he : statement.Enforced ruleset s t ws) (h : s.Coherent) (hshape : s.RuleShape)
    {kind : RuleKind} {id : NodeId} {n : Node}
    (hl : s.Leads [Vocabulary.ruleSubtree, ruleset, kind.name] id) (hn : s.get? id = some n) :
    t.get? id = some { n with value := ruleFor t ruleset kind } := by
  have ht := he.writes.coherent h
  obtain ⟨m, hm, hname, hpath, hparent, hprefix⟩ := he.writes.kept hn
  obtain ⟨set, hset, hchild⟩ :=
    h.leads_child_iff.mp (show s.Leads ([_, _] ++ [kind.name]) id from hl)
  have hvalue : m.value = ruleFor t ruleset kind := by
    rw [ruleFor, he.writes.ruleset?_kept h (h.leads_ruleset_iff.mp hset), Option.bind_some,
      valueOf?_of_child? (he.writes.child?_kept h hchild) hm]
    rfl
  have hchildren : m.children = [] := by
    have hl' := (h.leads_congr ht hn hm hpath _).mpr hl
    have hnil := (ruleShape_of_enforced hshape h he).children_eq_nil ht hl'
    rwa [Store.children, hm] at hnil
  have hbefore : n.children = [] := List.prefix_nil.mp (hchildren ▸ hprefix)
  rw [hm, ← hvalue, Option.some.injEq]
  cases m
  simp_all

/-- The root, the rule node and the ruleset differ at most in new children. -/
theorem grown (he : statement.Enforced ruleset s t ws) (h : s.Coherent) (hd : s.RulesDefined)
    {names : List String} {id : NodeId} {n : Node}
    (hnames : names <+: [Vocabulary.ruleSubtree, ruleset]) (hl : s.Leads names id)
    (hn : s.get? id = some n) : ∃ m, t.get? id = some m ∧ m = { n with children := m.children } ∧
      n.children <+: m.children ∧ ∀ c ∈ m.children, c ∈ n.children ∨ s.get? c = none ∧
        ∃ name, t.Leads (names ++ [name]) c ∧ InDefinition ruleset (names ++ [name]) := by
  have ht := he.writes.coherent h
  obtain ⟨m, hm, hname, hpath, hparent, hprefix⟩ := he.writes.kept hn
  have hl' := (h.leads_congr ht hn hm hpath _).mpr hl
  have hvalue : m.value = n.value := by
    rcases he.writes.value h hm with ⟨_, n', hn', _, _, hvalue⟩ | ⟨w, hmem, rfl, _, hvalue⟩
    · rw [hn] at hn'
      cases hn'
      exact hvalue
    · rw [← hvalue]
      rcases leads_of_enforced h he hmem hl' with ⟨rfl, hrule⟩ | ⟨rfl, hset⟩ | ⟨rfl, _⟩
      · rw [hd.value_pending he h hmem (by rw [hrule]; decide), hd.blank hl (Nat.zero_le _) hn]
      · rw [hd.value_pending he h hmem (hset ▸ isRuleName_of_not_bad he.bad),
          hd.blank hl (Nat.le_refl _) hn]
      · simpa using hnames.length_le
  refine ⟨m, hm, ?_, hprefix, fun c hc => ?_⟩
  · cases m
    simp_all
  · obtain ⟨k, hk, hkparent⟩ := ht.tree.child hm hc
    cases hk' : s.get? c with
    | some k' =>
      obtain ⟨k₁, hk₁, _, _, hsame, _⟩ := he.writes.kept hk'
      rw [hk] at hk₁
      cases hk₁
      have hchild := h.child?_iff_parent.mpr ⟨k', hk', hsame.symm.trans hkparent, rfl⟩
      obtain ⟨n', _, hn', hmem, _⟩ := h.child?_iff.mp hchild
      rw [hn] at hn'
      cases hn'
      exact .inl hmem
    | none =>
      refine .inr ⟨rfl, k.name, hl'.child hm hc hk, ?_⟩
      rcases he.writes.value h hk with ⟨_, k', hlive, _⟩ | ⟨w, hmem, rfl, _⟩
      · rw [hk'] at hlive
        cases hlive
      · rcases leads_of_enforced h he hmem (hl'.child hm hc hk) with
          ⟨heq, _⟩ | ⟨heq, _⟩ | ⟨heq, _⟩
        · exact .inl heq
        · exact .inr (.inl heq)
        · exact .inr (.inr ⟨_, heq⟩)

/-- A definition that would break nothing leaves what was checked, defaults standing for blank
values. -/
theorem defines (he : statement.Enforced ruleset s t ws) (h : s.Coherent) (hd : s.RulesDefined)
    (hcount : ∀ kind : RuleKind, statement.childNames.count kind.name ≤ 1) :
    Defines ruleset (fun kind => orDefault kind (effective s kind ruleset statement)) s t := by
  have hrule : (fun kind => orDefault kind (effective s kind ruleset statement)) =
      ruleFor t ruleset := by
    funext kind
    rw [ruleFor_enforced he h, ruleValue_of_enforced he h (hd.valid ruleset he.name)]
  rw [hrule]
  exact ⟨he.perm_rules h (hd.of_enforced h hcount he), fun _ _ _ => he.valued h hd.shape,
    fun _ _ _ => he.grown h hd, (h.redefines_of_enforced he).others⟩

end Statement.Enforced

/-! ## Runs -/

/-- The rules that a definition gives as children have different names. -/
theorem Statement.Admitted.nodup_childNames {s : Statement} (ha : s.Admitted)
    (hverb : s.verb = .enforce) : s.childNames.Nodup := by
  obtain ⟨_, _, _, _, _, _, hchildren⟩ := ha.defining hverb
  refine List.nodup_iff_count_le_one.mpr fun name => ?_
  by_cases hmem : name ∈ s.childNames
  · obtain ⟨child, hchild, rfl⟩ := List.mem_map.mp hmem
    obtain ⟨kind, hkind⟩ := Vocabulary.exists_kind_of_isRuleName (hchildren child hchild)
    exact hkind ▸ ha.count_kind kind
  · rw [List.count_eq_zero.mpr hmem]
    exact Nat.zero_le 1

namespace Engine

open Resolver

/-- In every store that statements other than renamings lead to, a definition of rules that would
break something changes nothing. One that would not gives its ruleset the six rules that were
checked, which are valid, and no other values or nodes. -/
theorem run_defines (format : DataFormat) (texts : List String) (text : String)
    (hverbs : ∀ text ∈ texts, (Statement.parse text).verb ≠ .rename) :
    let e : Engine Unit := runTexts .literal { resolverState := (), format } texts
    let s := e.parse text
    let ran := e.run .literal s
    s.verb = .enforce → ∃ ruleset, target? s = some ruleset ∧
      (enforceViolations e.store s ≠ [] → ran.1.store = e.store ∧ ran.2.isError = true) ∧
      (enforceViolations e.store s = [] → ran.2.isError = false ∧
        ValidRules (fun kind => orDefault kind (effective e.store kind ruleset s)) ∧
        Statement.Defines ruleset (fun kind => orDefault kind (effective e.store kind ruleset s))
          e.store ran.1.store) := by
  intro e s ran hverb
  obtain ⟨h, hd⟩ : e.store.Coherent ∧ e.store.RulesDefined :=
    rulesDefined_storeAfter format texts hverbs
  have hsession : sessionResponse? s = none := by simp [sessionResponse?, hverb]
  have ha : s.Admitted := (parse_cases e text).resolve_left (by simp [s, hsession])
  have hexecute : s.executeOn e.store = s.enforce e.store := by rw [Statement.executeOn, hverb]
  have hrun : ∀ {t response}, s.enforce e.store = .ok (t, response) →
      ran = ({ e with store := t }, response) := fun hok =>
    run_literal_of_ok hsession (ha.nodup_childNames hverb) (hexecute.trans hok)
  obtain ⟨ruleset, htarget, _⟩ := ha.defining hverb
  refine ⟨ruleset, htarget, fun hviolations => ?_, fun hnone => ?_⟩
  · rw [hrun (Statement.enforce_of_violations hviolations)]
    exact ⟨rfl, rfl⟩
  · obtain ⟨t, response, _, ws, hok, htarget', henforced, herror, _⟩ :=
      ha.enforce_of_checked hverb h hnone
    rw [htarget] at htarget'
    cases htarget'
    rw [hrun hok]
    have hrules := ruleValue_of_enforced henforced h (hd.valid ruleset henforced.name)
    refine ⟨herror, ?_, henforced.defines h hd ha.count_kind⟩
    rw [← funext hrules]
    exact validRules_of_enforced henforced h ha.count_kind (hd.valid ruleset henforced.name)

/-- A new type alone is checked with the bounds that are there. -/
theorem run_defines_type :
    let e : Engine Unit := runTexts .literal { resolverState := () }
      ["write rule.age: type=integer, max=120", "write age=30"]
    let s := e.parse "write rule.age.type=decimal"
    let rule := fun kind => orDefault kind (effective e.store kind "age" s)
    (rule .type, rule .max, rule .min) = ("decimal", "120", "") ∧
      (e.run .literal s).2.isError = false ∧ ValidRules rule ∧
      Statement.Defines "age" rule e.store (e.run .literal s).1.store := by
  intro e s rule
  obtain ⟨hverb, hage⟩ : s.verb = .enforce ∧ target? s = some "age" := by decide +kernel
  obtain ⟨hnone, hrules⟩ : enforceViolations e.store s = [] ∧
      (rule .type, rule .max, rule .min) = ("decimal", "120", "") := by decide +kernel
  obtain ⟨ruleset, htarget, _, hdefines⟩ := run_defines .basic
    ["write rule.age: type=integer, max=120", "write age=30"] "write rule.age.type=decimal"
    (by decide +kernel) hverb
  rw [hage, Option.some_inj] at htarget
  cases htarget
  exact ⟨hrules, hdefines hnone⟩

end Engine

end TreeDatabase
