import TreeDatabase.Proofs.Ruleset.Confinement

/-!
# Valid rules

Rules are valid when there is the type that they name, when this type admits their bounds, in order,
and when their flags are true or false. The check of a definition looks only at what is given; that
the rules are valid which it leaves is because those were that it found.
-/

namespace TreeDatabase

open Ruleset Store

namespace Ruleset

/-- Rules that can be asked of values. -/
structure ValidRules (rule : RuleKind → String) : Prop where
  bounds : ∃ t, ValueType.ofName? (rule .type) = some t ∧ t.acceptsBound (rule .max) = true ∧
    t.acceptsBound (rule .min) = true ∧ t.boundsOrdered (rule .min) (rule .max) = true
  flags : ∀ kind : RuleKind, kind.isFlag = true → rule kind = "true" ∨ rule kind = "false"

theorem validRules_default {rule : RuleKind → String} (h : ∀ kind, rule kind = kind.default) :
    ValidRules rule where
  bounds := ⟨.text, by simp only [h]; decide⟩
  flags := by
    intro kind hflag
    rw [h]
    cases kind with
    | type | max | min => cases hflag
    | required | key | unique => exact .inr rfl

variable {s : Statement} {store t : Store} {ruleset : String}

/-! ## What is checked of a definition -/

/-- A child that names a rule gives its value to this rule, unless the value is blank. -/
theorem assigned?_of_mem_children (hselected : RuleKind.ofName? s.selectedName = none)
    {kind : RuleKind} {value : String} (hcount : s.childNames.count kind.name ≤ 1)
    (hmem : (kind.name, value) ∈ s.children) (hvalue : value ≠ "") :
    assigned? s kind = some value := by
  have hne : s.selectedName ≠ kind.name := by
    intro heq
    rw [heq, RuleKind.ofName?_name] at hselected
    cases hselected
  have hlookup : s.childValue? kind.name = some value := by
    cases hl : s.children.lookup kind.name with
    | none =>
      rw [List.lookup_eq_none_iff] at hl
      simpa using hl _ hmem
    | some other =>
      obtain ⟨before, after, hsplit, _⟩ := List.lookup_eq_some_iff.mp hl
      have hother : (kind.name, other) ∈ s.children := by simp [hsplit]
      have hle : s.children.countP (fun child => child.1 == kind.name) ≤ 1 := by
        rwa [Statement.childNames, List.count, List.countP_map] at hcount
      have hsame := eq_of_countP_le_one hle hother hmem (by simp) (by simp)
      rw [Statement.childValue?, hl, (Prod.mk.inj hsame).2]
  rw [assigned?, if_neg hne]
  dsimp only
  rw [hlookup]
  simp [Option.filter, hvalue]

/-- The rules that a statement names, with their values. -/
def given (s : Statement) : List (RuleKind × String) :=
  match RuleKind.ofName? s.selectedName with
  | some kind => [(kind, s.selectedValue.getD "")]
  | none => (s.children.filter (·.2 ≠ "")).filterMap fun child =>
      (RuleKind.ofName? child.1).map fun kind => (kind, child.2)

theorem definitions_eq (store : Store) (ruleset : String) (s : Statement) :
    definitions store ruleset s =
      if ((given s).map Prod.fst).contains .type then
        given s ++ ([RuleKind.max, .min].filter
          (!((given s).map Prod.fst).contains ·)).map fun kind =>
            (kind, effective store kind ruleset s)
      else given s := rfl

theorem effective_of_assigned {kind : RuleKind} {value : String}
    (h : assigned? s kind = some value) : effective store kind ruleset s = value := by
  rw [effective, h]

/-- Of several rules that a statement names each one is given a value. -/
theorem assigned?_of_mem_given (hcount : ∀ kind : RuleKind, s.childNames.count kind.name ≤ 1)
    {kind other : RuleKind} (hkind : kind ∈ (given s).map Prod.fst)
    (hother : other ∈ (given s).map Prod.fst) (hne : kind ≠ other) :
    assigned? s kind ≠ none := by
  rw [given] at hkind hother
  split at hkind
  · next selected hselected =>
    rw [hselected] at hother
    rw [List.map_singleton, List.mem_singleton] at hkind hother
    exact absurd (hkind.trans hother.symm) hne
  · next hselected =>
    obtain ⟨entry, hentry, rfl⟩ := List.mem_map.mp hkind
    obtain ⟨child, hchild, heq⟩ := List.mem_filterMap.mp hentry
    obtain ⟨named, hnamed, rfl⟩ := Option.map_eq_some_iff.mp heq
    obtain ⟨hmem, hvalue⟩ := List.mem_filter.mp hchild
    have hname := RuleKind.name_of_ofName? hnamed
    have hpair : (named.name, child.2) ∈ s.children := hname ▸ hmem
    simp [assigned?_of_mem_children hselected (hcount named) hpair (by simpa using hvalue)]

/-- The bounds are checked that a definition gives, and with a new type all of them. -/
theorem mem_definitions_bound (hcount : ∀ kind : RuleKind, s.childNames.count kind.name ≤ 1)
    (hdefining : s.Defining ruleset) (hbad : Statement.isBadRulesetName ruleset = false)
    {kind : RuleKind} (hkind : kind = .max ∨ kind = .min)
    (hassigned : assigned? s .type ≠ none ∨ assigned? s kind ≠ none) :
    (kind, effective store kind ruleset s) ∈ definitions store ruleset s := by
  cases hvalue : assigned? s kind with
  | some value =>
    rw [effective_of_assigned hvalue]
    exact mem_definitions_of_assigned hdefining hbad hvalue
  | none =>
    have htype := hassigned.resolve_right (not_not.mpr hvalue)
    obtain ⟨type, htype⟩ := Option.ne_none_iff_exists'.mp htype
    have hmem : (.type, type) ∈ definitions store ruleset s :=
      mem_definitions_of_assigned hdefining hbad htype
    have hgiven : .type ∈ (given s).map Prod.fst := by
      rw [definitions_eq] at hmem
      split at hmem
      · next h => exact List.contains_iff_mem.mp h
      · exact List.mem_map_of_mem hmem
    have hnot : kind ∉ (given s).map Prod.fst := by
      intro hin
      have hne : kind ≠ .type := by rcases hkind with rfl | rfl <;> decide
      exact assigned?_of_mem_given hcount hin hgiven hne hvalue
    rw [definitions_eq, if_pos (List.contains_iff_mem.mpr hgiven)]
    refine List.mem_append_right _ (List.mem_map_of_mem (List.mem_filter.mpr ⟨?_, ?_⟩))
    · simpa using hkind
    · simpa using hnot

/-! ## What a definition leaves -/

section

variable {ws : List NodeWrite}

theorem ruleValue_of_not_assigned (hstore : store.Coherent) (hname : isNodeName ruleset = true)
    {kind : RuleKind} (h : assigned? s kind = none) :
    s.ruleValue kind (persisted? store ruleset kind) = ruleFor store ruleset kind := by
  rw [Statement.ruleValue, h, ruleFor_eq hstore hname]
  rfl

theorem flag_of_enforced (he : s.Enforced ruleset store t ws) (h : store.Coherent)
    (hold : ValidRules (ruleFor store ruleset)) {kind : RuleKind} (hflag : kind.isFlag = true) :
    s.ruleValue kind (persisted? store ruleset kind) = "true" ∨
      s.ruleValue kind (persisted? store ruleset kind) = "false" := by
  cases hassigned : assigned? s kind with
  | none =>
    rw [ruleValue_of_not_assigned h he.name hassigned]
    exact hold.flags kind hflag
  | some value =>
    have hnone := he.checked.definitions _
      (mem_definitions_of_assigned he.defining he.bad hassigned)
    rw [Statement.ruleValue, hassigned, Option.getD_some]
    cases kind with
    | type | max | min => cases hflag
    | required | key | unique => simpa [definitionViolation?, or_iff_not_imp_left] using hnone

/-- What is left of valid rules is what was checked, defaults standing for blank values. -/
theorem ruleValue_of_enforced (he : s.Enforced ruleset store t ws) (h : store.Coherent)
    (hold : ValidRules (ruleFor store ruleset)) (kind : RuleKind) :
    s.ruleValue kind (persisted? store ruleset kind) =
      orDefault kind (effective store kind ruleset s) := by
  cases hkind : kind.isFlag with
  | true =>
    refine ruleValue_eq_orDefault (.inl fun hgiven => ?_)
    have hflag := flag_of_enforced he h hold hkind
    rw [ruleValue_eq, hgiven, Option.getD_some] at hflag
    exact absurd hflag (by decide)
  | false =>
    cases kind with
    | type =>
      obtain ⟨type, htype, _⟩ := hold.bounds
      obtain ⟨_, _, hsame⟩ := type_of_enforced he h ⟨type, htype⟩
      exact hsame.symm
    | max | min => exact ruleValue_eq_orDefault (.inr rfl)
    | required | key | unique => cases hkind

theorem ruleValue_bound {kind : RuleKind} (hkind : kind = .max ∨ kind = .min) :
    s.ruleValue kind (persisted? store ruleset kind) = effective store kind ruleset s := by
  have hdefault : kind.default = "" := by rcases hkind with rfl | rfl <;> rfl
  rw [ruleValue_eq, effective_eq, hdefault]

/-- A definition leaves valid rules. -/
theorem validRules_of_enforced (he : s.Enforced ruleset store t ws) (h : store.Coherent)
    (hcount : ∀ kind : RuleKind, s.childNames.count kind.name ≤ 1)
    (hold : ValidRules (ruleFor store ruleset)) :
    ValidRules fun kind => s.ruleValue kind (persisted? store ruleset kind) where
  flags _ hflag := flag_of_enforced he h hold hflag
  bounds := by
    obtain ⟨before, hbefore, hmax, hmin, hordered⟩ := hold.bounds
    obtain ⟨type, htype, hsame⟩ := type_of_enforced he h ⟨before, hbefore⟩
    have hchecked : ∀ kind : RuleKind, kind = .max ∨ kind = .min →
        assigned? s .type ≠ none ∨ assigned? s kind ≠ none →
        type.acceptsBound (effective store kind ruleset s) = true ∧ type.boundsOrdered
          (effective store .min ruleset s) (effective store .max ruleset s) = true := by
      intro kind hkind hassigned
      have hnone := he.checked.definitions _
        (mem_definitions_bound hcount he.defining he.bad hkind hassigned)
      rw [hsame] at hnone
      rcases hkind with rfl | rfl <;>
        simpa [definitionViolation?, htype, ite_eq_iff] using hnone
    -- a bound that was not checked was one of this type before
    have hkept : assigned? s .type = none → type = before := by
      intro hnone
      rw [ruleValue_of_not_assigned h he.name hnone, hbefore] at htype
      exact (Option.some.inj htype).symm
    have hbound : ∀ kind : RuleKind, kind = .max ∨ kind = .min →
        before.acceptsBound (ruleFor store ruleset kind) = true →
        type.acceptsBound (s.ruleValue kind (persisted? store ruleset kind)) = true := by
      intro kind hkind haccepts
      by_cases hassigned : assigned? s .type ≠ none ∨ assigned? s kind ≠ none
      · rw [ruleValue_bound hkind]
        exact (hchecked kind hkind hassigned).1
      · simp only [ne_eq, not_or, not_not] at hassigned
        rw [hkept hassigned.1, ruleValue_of_not_assigned h he.name hassigned.2]
        exact haccepts
    refine ⟨type, htype, hbound .max (.inl rfl) hmax, hbound .min (.inr rfl) hmin, ?_⟩
    -- of the two bounds the one that is new is checked against the other
    by_cases hfirst : assigned? s .type ≠ none ∨ assigned? s .max ≠ none
    · rw [ruleValue_bound (.inl rfl), ruleValue_bound (.inr rfl)]
      exact (hchecked .max (.inl rfl) hfirst).2
    by_cases hsecond : assigned? s .type ≠ none ∨ assigned? s .min ≠ none
    · rw [ruleValue_bound (.inl rfl), ruleValue_bound (.inr rfl)]
      exact (hchecked .min (.inr rfl) hsecond).2
    simp only [ne_eq, not_or, not_not] at hfirst hsecond
    rw [hkept hfirst.1, ruleValue_of_not_assigned h he.name hfirst.2,
      ruleValue_of_not_assigned h he.name hsecond.2]
    exact hordered

end

end Ruleset

/-! ## Rules over runs -/

namespace Store

variable {s t : Store}

/-- What statements other than renamings keep of the rule subtree. -/
structure RulesDefined (s : Store) : Prop where
  shape : s.RuleShape
  valid : ∀ name, isNodeName name = true → ValidRules (ruleFor s name)
  /-- The children of a ruleset are rules. -/
  members : ∀ {ruleset name id}, s.Leads [Vocabulary.ruleSubtree, ruleset, name] id →
    Vocabulary.isRuleName name = true
  /-- The rule node and the rulesets have blank values. -/
  blank : ∀ {names id n}, s.Leads (Vocabulary.ruleSubtree :: names) id → names.length ≤ 1 →
    s.get? id = some n → n.value = ""

theorem rulesDefined_empty : empty.RulesDefined := by
  have hnone : ∀ {names id}, ¬ empty.Leads (Vocabulary.ruleSubtree :: names) id := by
    intro names id hl
    have hunder := coherent_empty.underRules_iff_leads.mpr ⟨names, hl⟩
    obtain ⟨r, top, _, hr, htop, _⟩ := hunder
    rw [(get?_empty hr).2] at htop
    cases htop
  exact ⟨ruleShape_empty, fun name _ => validRules_default (ruleFor_empty name),
    fun hl => absurd hl hnone, fun hl => absurd hl hnone⟩

/-- Rules stay defined while nothing of the rule subtree changes. -/
theorem RulesDefined.of_sameAt (hd : s.RulesDefined) (ht : Coherent t) (hshape : t.RuleShape)
    (hsame : SameAt InRules s t)
    (hrules : ∀ name, isNodeName name = true → ∀ kind, ruleFor t name kind = ruleFor s name kind) :
    t.RulesDefined where
  shape := hshape
  valid name hname := funext (hrules name hname) ▸ hd.valid name hname
  members hl := by
    obtain ⟨m, hm, _⟩ := ht.path_of_leads hl
    exact hd.members ((hsame [Vocabulary.ruleSubtree, _, _] rfl _ m).mpr ⟨hl, hm⟩).1
  blank hl hlength hm := by
    obtain ⟨hl', hn⟩ := (hsame (Vocabulary.ruleSubtree :: _) rfl _ _).mpr ⟨hl, hm⟩
    exact hd.blank hl' hlength hn

theorem RulesDefined.of_prunes (hd : s.RulesDefined) (h : Coherent s) (ht : Coherent t)
    (hp : s.Prunes t) (hrules : ∀ name, isNodeName name = true → KeepsOrLoses s t name) :
    t.RulesDefined where
  shape := hp.ruleShape h ht hd.shape
  valid name hname := by
    rcases hrules name hname with hkeep | hlose
    · exact funext (ruleFor_congr h ht hname hkeep) ▸ hd.valid name hname
    · exact validRules_default (ruleFor_of_unset ht hname hlose)
  members hl := hd.members (hp.leads h ht hl)
  blank hl hlength hm := by
    obtain ⟨n, hn, _, _, hvalue, _⟩ := hp _ _ hm
    rw [hvalue]
    exact hd.blank (hp.leads h ht hl) hlength hn

section

variable {statement : Statement} {ruleset : String} {ws : List NodeWrite} {w : NodeWrite}

/-- A write that gives no value leaves a node blank that was. -/
theorem Writes.value_pending_of_blank (hw : s.Writes ws t) (h : Coherent s) (hmem : w ∈ ws)
    (hblank : w.value.getD "" = "") (hold : ∀ n, s.get? w.id = some n → n.value = "") :
    (s.pending w).value = "" := by
  have hexisting := hw.child?_eq h hmem
  cases hvalue : w.value with
  | some value =>
    rw [hvalue, Option.getD_some] at hblank
    rw [pending, foreseen, NodeWrite.request, hvalue]
    exact hblank
  | none =>
    rw [pending, foreseen, NodeWrite.request, hvalue]
    dsimp only
    rw [hexisting]
    cases hn : s.get? w.id with
    | none => rfl
    | some n => simpa [hn] using hold n hn

/-- The rule node and the rulesets keep the blank values that they have. -/
theorem RulesDefined.value_pending (hd : s.RulesDefined) (he : statement.Enforced ruleset s t ws)
    (h : Coherent s) (hmem : w ∈ ws) (hrule : Vocabulary.isRuleName w.name = false) :
    (s.pending w).value = "" := by
  have ht := he.writes.coherent h
  refine he.writes.value_pending_of_blank h hmem (he.blanks w hmem hrule) fun n hn => ?_
  obtain ⟨m, hm, _, hpath, _⟩ := he.writes.kept hn
  obtain ⟨names, hl⟩ := h.exists_leads hn
  have hl' := (h.leads_congr ht hn hm hpath names).mpr hl
  rcases leads_of_enforced h he hmem hl' with ⟨rfl, _⟩ | ⟨rfl, _⟩ | ⟨_, hname⟩
  · exact hd.blank hl (Nat.zero_le _) hn
  · exact hd.blank hl (Nat.le_refl _) hn
  · rw [hrule] at hname
    cases hname

theorem RulesDefined.of_enforced (hd : s.RulesDefined) (h : Coherent s)
    (hcount : ∀ kind : RuleKind, statement.childNames.count kind.name ≤ 1)
    (he : statement.Enforced ruleset s t ws) : t.RulesDefined := by
  have ht := he.writes.coherent h
  refine ⟨ruleShape_of_enforced hd.shape h he, fun name hname => ?_, ?_, ?_⟩
  · by_cases heq : name = ruleset
    · rw [heq, funext (ruleFor_enforced he h)]
      exact validRules_of_enforced he h hcount (hd.valid ruleset he.name)
    · exact funext (ruleFor_of_enforced h he hname heq) ▸ hd.valid name hname
  · intro other name id hl
    obtain ⟨m, hm, _⟩ := ht.path_of_leads hl
    rcases he.writes.value h hm with ⟨_, n, hn, _, hpath, _⟩ | ⟨w, hmem, rfl, _⟩
    · exact hd.members ((h.leads_congr ht hn hm hpath _).mp hl)
    · rcases leads_of_enforced h he hmem hl with ⟨heq, _⟩ | ⟨heq, _⟩ | ⟨heq, hrule⟩
      · cases heq
      · cases heq
      · simp only [List.cons.injEq, true_and, and_true] at heq
        rwa [heq.2]
  · intro names id m hl hlength hm
    rcases he.writes.value h hm with ⟨_, n, hn, _, hpath, hvalue⟩ | ⟨w, hmem, rfl, _, hvalue⟩
    · rw [hvalue]
      exact hd.blank ((h.leads_congr ht hn hm hpath _).mp hl) hlength hn
    · rw [← hvalue]
      refine hd.value_pending he h hmem ?_
      rcases leads_of_enforced h he hmem hl with ⟨_, hname⟩ | ⟨_, hname⟩ | ⟨heq, _⟩
      · rw [hname]
        decide
      · rw [hname]
        exact Statement.isRuleName_of_not_bad he.bad
      · rw [List.cons.injEq] at heq
        rw [heq.2] at hlength
        exact absurd hlength (by simp)

end

end Store

/-- No statement but a renaming leaves rules that are not defined. -/
theorem Statement.Executes.rulesDefined {s : Statement} {store t : Store}
    (he : s.Executes store t) (hverb : s.verb ≠ .rename) (h : store.Coherent) (ht : t.Coherent)
    (hd : store.RulesDefined) : t.RulesDefined := by
  have hshape := hd.shape.of_executes h ht he
  have hsame := he.sameAt_inRules h hd.shape
  cases he with
  | unchanged => exact hd
  | written admitted verb writes requested _ =>
    refine hd.of_sameAt ht hshape (hsame verb) fun name hname => ?_
    have houtside := admitted.writes_outside verb h hd.shape writes requested
    exact writes.ruleFor_of_outside h (fun w hmem => (houtside w hmem).2.1) hname
  | deleted admitted verb prunes =>
    exact hd.of_prunes h ht prunes fun name hname =>
      admitted.delete_keepsOrLoses verb h hd.shape hname
  | renamed _ verb _ => exact absurd verb hverb
  | enforced admitted _ enforced => exact hd.of_enforced h admitted.count_kind enforced

/-- After any statements none of which is a renaming, the rules are defined. -/
theorem Engine.rulesDefined_storeAfter (format : DataFormat) (texts : List String)
    (hverbs : ∀ text ∈ texts, (Statement.parse text).verb ≠ .rename) :
    (storeAfter format texts).Coherent ∧ (storeAfter format texts).RulesDefined :=
  storeAfter_keeps (fun _ _ _ h ht hd hexecutes hverb => hexecutes.rulesDefined hverb h ht hd)
    rulesDefined_empty format texts hverbs

end TreeDatabase
