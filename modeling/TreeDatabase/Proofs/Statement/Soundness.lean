import TreeDatabase.Proofs.Operation.Enforce
import TreeDatabase.Proofs.Operation.Rename
import TreeDatabase.Proofs.Statement.Reading
import TreeDatabase.Proofs.Text.Runs

/-!
# What execution can rely on

A text that is read without a fault is a statement in which names are proper, keyword sites stand
where there is something to fill, and the demands of the verb are met.
-/

namespace TreeDatabase

open Store Token

/-! ## Trimmed texts -/

theorem Token.trim_joinText (ts : List Token) : Text.trim (joinText ts) = joinText ts := by
  rw [Text.trim, joinText, String.toList_ofList, Text.trimChars, Text.trimChars,
    Text.trimBy_trimBy]

/-! ## Keyword sites -/

theorem KeywordSite.field_of_ofTokens? {field : Field} {ts : List Token} {site : KeywordSite}
    (h : KeywordSite.ofTokens? field ts = some site) : site.field = field := by
  unfold KeywordSite.ofTokens? at h
  split at h
  · split at h
    · cases h
      rfl
    · cases h
  · split at h
    · cases h
      rfl
    · cases h
  · cases h

namespace Children

theorem trimmed_ofItems (items : List (List Token)) (index : Nat) (plain : List String) :
    ∀ entry ∈ (ofItems index plain items).entries, Text.trim entry.1 = entry.1 := by
  induction items generalizing index plain with
  | nil => simp [ofItems]
  | cons item items ih =>
    rw [ofItems]
    intro entry hentry
    rcases List.mem_cons.mp hentry with rfl | hentry
    · exact trim_joinText _
    · exact ih _ _ entry hentry

/-- Every site among the children fills the name or the value of one of them. -/
theorem field_ofItems (items : List (List Token)) (index : Nat) (plain : List String) :
    ∀ site ∈ (ofItems index plain items).sites, ∃ i < (ofItems index plain items).entries.length,
      site.field = .childName (index + i) ∨ site.field = .childValue (index + i) := by
  induction items generalizing index plain with
  | nil => simp [ofItems]
  | cons item items ih =>
    rw [ofItems]
    intro site hsite
    simp only [List.mem_append, Option.mem_toList, Option.bind_eq_some_iff]
      at hsite
    rcases hsite with (hname | ⟨ts, _, hvalue⟩) | hrest
    · exact ⟨0, by simp, .inl (KeywordSite.field_of_ofTokens? hname)⟩
    · exact ⟨0, by simp, .inr (KeywordSite.field_of_ofTokens? hvalue)⟩
    · obtain ⟨i, hi, hfield⟩ := ih _ _ site hrest
      refine ⟨i + 1, by simpa using hi, ?_⟩
      rw [show index + (i + 1) = index + 1 + i by omega]
      exact hfield

/-- The first of children without faults has a keyword for a name, or a name that none of those
before has. -/
theorem settled_ofItems_cons {item : List Token} {items : List (List Token)} {index : Nat}
    {plain : List String} (h : (ofItems index plain (item :: items)).faults = []) :
    let name := (Text.cutAt (· == equals) item).1
    let site := KeywordSite.ofTokens? (.childName index) name
    (site = none → joinText name ∉ plain) ∧
      (ofItems (index + 1) (if site.isNone then plain ++ [joinText name] else plain)
        items).faults = [] := by
  intro name site
  rw [ofItems] at h
  simp only [List.append_eq_nil_iff, ite_eq_right_iff, List.cons_ne_nil, imp_false] at h
  obtain ⟨⟨_, hrepeated⟩, hrest⟩ := h
  refine ⟨fun hsite hmem => hrepeated ?_, hrest⟩
  rw [Bool.and_eq_true, Option.isNone_iff_eq_none, List.contains_iff_mem]
  exact ⟨hsite, hmem⟩

/-- A child with one of the names before has a keyword for its name. -/
theorem site_ofItems_of_plain {items : List (List Token)} {index : Nat} {plain : List String}
    (h : (ofItems index plain items).faults = []) {j : Nat} {name : String}
    (hj : ((ofItems index plain items).entries.map Prod.fst)[j]? = some name)
    (hmem : name ∈ plain) :
    ∃ site ∈ (ofItems index plain items).sites, site.field = .childName (index + j) := by
  induction items generalizing index plain j with
  | nil => simp [ofItems] at hj
  | cons item items ih =>
    obtain ⟨hfresh, hrest⟩ := settled_ofItems_cons h
    rw [ofItems] at hj ⊢
    simp only [List.map_cons, List.mem_append, Option.mem_toList] at hj ⊢
    cases j with
    | zero =>
      obtain rfl : joinText (Text.cutAt (· == equals) item).1 = name := by simpa using hj
      cases hsite : KeywordSite.ofTokens? (.childName index) (Text.cutAt (· == equals) item).1 with
      | none => exact absurd hmem (hfresh hsite)
      | some site => exact ⟨site, .inl (.inl rfl), KeywordSite.field_of_ofTokens? hsite⟩
    | succ j =>
      obtain ⟨site, hin, hfield⟩ := ih hrest hj (by split <;> simp [hmem])
      exact ⟨site, .inr hin, by rw [hfield, Nat.add_right_comm, Nat.add_assoc]⟩

/-- Of two children with one name, a keyword fills one. -/
theorem distinct_ofItems {items : List (List Token)} {index : Nat} {plain : List String}
    (h : (ofItems index plain items).faults = []) {i j : Nat} {name : String} (hij : i < j)
    (hi : ((ofItems index plain items).entries.map Prod.fst)[i]? = some name)
    (hj : ((ofItems index plain items).entries.map Prod.fst)[j]? = some name) :
    ∃ site ∈ (ofItems index plain items).sites,
      site.field = .childName (index + i) ∨ site.field = .childName (index + j) := by
  induction items generalizing index plain i j with
  | nil => simp [ofItems] at hi
  | cons item items ih =>
    obtain ⟨_, hrest⟩ := settled_ofItems_cons h
    rw [ofItems] at hi hj ⊢
    simp only [List.map_cons, List.mem_append, Option.mem_toList] at hi hj ⊢
    have hlater : ∀ k, index + (k + 1) = index + 1 + k := by omega
    obtain ⟨j, rfl⟩ : ∃ k, j = k + 1 := Nat.exists_eq_add_one_of_ne_zero (by omega)
    cases i with
    | zero =>
      obtain rfl : joinText (Text.cutAt (· == equals) item).1 = name := by simpa using hi
      cases hsite : KeywordSite.ofTokens? (.childName index) (Text.cutAt (· == equals) item).1 with
      | none =>
        -- the name is one of those before for the children that follow
        obtain ⟨site, hin, hfield⟩ := site_ofItems_of_plain hrest hj (by simp [hsite])
        exact ⟨site, .inr (hsite ▸ hin), .inr (by rw [hlater]; exact hfield)⟩
      | some site => exact ⟨site, .inl (.inl rfl), .inl (KeywordSite.field_of_ofTokens? hsite)⟩
    | succ i =>
      obtain ⟨site, hin, hfield⟩ := ih hrest (by omega) hi hj
      exact ⟨site, .inr hin, by rw [hlater i, hlater j]; exact hfield⟩

end Children

/-- The children of an argument are read from items, if there are any. -/
theorem Argument.children_ofTokens (ts : List Token) : (ofTokens ts).children = {} ∨
    ∃ items, (ofTokens ts).children = Children.ofItems 0 [] items := by
  rw [ofTokens]
  dsimp only
  cases (Text.cutAt (· == colon) ts).2 with
  | none => exact .inl rfl
  | some rest => exact .inr ⟨_, rfl⟩

namespace Statement

/-! ## Parts of statements -/

/-- A name that a statement can give a node. -/
structure ProperName (name : String) : Prop where
  ne_blank : name ≠ ""
  trimmed : Text.trim name = name
  valid : isValidName name = true

/-- Where a keyword fills something, there is something to fill. -/
def SitesExist (s : Statement) : Prop := ∀ site ∈ s.sites, (s.field? site.field).isSome = true

/-- Of two children with one name, a keyword fills the name of one. -/
def DistinctChildren (s : Statement) : Prop :=
  ∀ (i j : Nat) (name : String), i < j → s.childNames[i]? = some name →
    s.childNames[j]? = some name → ∃ site ∈ s.sites,
      site.field = .childName i ∨ site.field = .childName j

section Parts

variable {text : String} {n : Nat} {clauses : Clauses} {filter : Filter}

theorem trimmed_hierarchy_ofParts :
    ∀ name ∈ (ofParts text n clauses filter).hierarchy, Text.trim name = name := by
  intro name hname
  have hsplit : (ofParts text n clauses filter).hierarchy = Argument.pathNames clauses.argument :=
    Argument.hierarchy_ofTokens clauses.argument
  rw [hsplit, Argument.pathNames] at hname
  obtain ⟨ts, _, rfl⟩ := List.mem_map.mp hname
  exact trim_joinText ts

theorem trimmed_selectedValue_ofParts {value : String}
    (h : (ofParts text n clauses filter).selectedValue = some value) : Text.trim value = value := by
  obtain ⟨ts, _, rfl⟩ := Option.map_eq_some_iff.mp h
  exact trim_joinText ts

theorem trimmed_childNames_ofParts :
    ∀ name ∈ (ofParts text n clauses filter).childNames, Text.trim name = name := by
  intro name hname
  obtain ⟨entry, hentry, rfl⟩ := List.mem_map.mp hname
  rcases Argument.children_ofTokens clauses.argument with hnone | ⟨items, hitems⟩
  · rw [ofParts, hnone] at hentry
    cases hentry
  · rw [ofParts, hitems] at hentry
    exact Children.trimmed_ofItems items 0 [] entry hentry

theorem sitesExist_ofParts : (ofParts text n clauses filter).SitesExist := by
  intro site hsite
  have hsite' : site ∈ (Argument.ofTokens clauses.argument).sites := hsite
  simp only [Argument.sites, List.mem_append, Option.mem_toList] at hsite'
  rcases hsite' with (hname | hvalue) | hchild
  · rw [KeywordSite.field_of_ofTokens? hname]
    rfl
  · obtain ⟨ts, hts, hvalue⟩ := Option.bind_eq_some_iff.mp hvalue
    rw [KeywordSite.field_of_ofTokens? hvalue]
    change ((Option.map joinText _).isSome) = true
    rw [hts]
    rfl
  · rcases Argument.children_ofTokens clauses.argument with hnone | ⟨items, hitems⟩
    · rw [hnone] at hchild
      cases hchild
    · rw [hitems] at hchild
      obtain ⟨i, hi, hfield⟩ := Children.field_ofItems items 0 [] site hchild
      rw [← hitems] at hi
      have hget : (ofParts text n clauses filter).children[i]? =
          some (Argument.ofTokens clauses.argument).children.entries[i] :=
        List.getElem?_eq_getElem hi
      rw [Nat.zero_add] at hfield
      rcases hfield with hfield | hfield
      · rw [hfield, field?, hget]
        rfl
      · rw [hfield, field?, hget]
        rfl

theorem distinctChildren_ofParts
    (h : (Argument.ofTokens clauses.argument).children.faults = []) :
    (ofParts text n clauses filter).DistinctChildren := by
  intro i j name hij hi hj
  rcases Argument.children_ofTokens clauses.argument with hnone | ⟨items, hitems⟩
  · rw [childNames, ofParts, hnone] at hi
    cases hi
  · rw [hitems] at h
    rw [childNames, ofParts, hitems] at hi hj
    obtain ⟨site, hsite, hfield⟩ := Children.distinct_ofItems h hij hi hj
    rw [Nat.zero_add, Nat.zero_add] at hfield
    refine ⟨site, ?_, hfield⟩
    change site ∈ (Argument.ofTokens clauses.argument).sites
    rw [Argument.sites, hitems]
    exact List.mem_append_right _ hsite

end Parts

/-! ## Checked statements -/

/-- The checks change nothing but the verb, and the sites of statements that leave keywords as they
are written. -/
theorem validate_eq {s : Statement} (h : s.validate.verb ≠ .error) :
    ∃ verb, s.validate = { s with
      verb
      sites := if verb = .rename ∨ verb = .enforce then [] else s.sites } := by
  refine ⟨s.retarget.verb, ?_⟩
  rw [(validate_of_ne_error h).1, settleSites]
  rcases s.retarget_cases with ⟨_, _, hr⟩ | ⟨_, hr⟩
  · rw [hr]
    rfl
  · rw [hr]
    split <;> rfl

/-- Renamings and definitions of rules have no keyword sites. -/
theorem sites_parse_eq_nil {text : String}
    (hverb : (parse text).verb = .rename ∨ (parse text).verb = .enforce) :
    (parse text).sites = [] := by
  have hne : (parse text).verb ≠ .error := by
    intro herror
    simp [herror] at hverb
  have hreading := reading_parse hne
  generalize parse text = s at hverb hne hreading
  cases hreading with
  | comment => rfl
  | bare _ _ => rfl
  | data _ _ _ _ filter =>
    obtain ⟨verb, heq⟩ := validate_eq hne
    rw [heq] at hverb ⊢
    exact if_pos hverb

theorem field?_checked (s : Statement) (verb : Verb) (sites : List KeywordSite) (field : Field) :
    { s with verb, sites }.field? field = s.field? field := by
  cases field <;> rfl

theorem SitesExist.validate {s : Statement} (hs : s.SitesExist) (h : s.validate.verb ≠ .error) :
    s.validate.SitesExist := by
  obtain ⟨verb, heq⟩ := validate_eq h
  rw [heq]
  intro site hsite
  dsimp only at hsite
  split at hsite
  · cases hsite
  · rw [field?_checked]
    exact hs site hsite

/-! ## Demands of the verbs -/

/-- What a name has to avoid for its node to be deleted or renamed. -/
structure Removable (name : String) : Prop where
  reserved : Vocabulary.isReserved name = false
  rule : Vocabulary.isRuleName name = false
  root : name ≠ Vocabulary.root

/-- A ruleset is named, and perhaps a rule of it. -/
inductive DefinesRules (s : Statement) (anchor : List String) (ruleset : String) : Prop
  | ruleset (path : s.parents = anchor ++ [Vocabulary.ruleSubtree])
      (name : s.selectedName = ruleset) (value : s.selectedValue.getD "" = "")
  | rule (path : s.parents = anchor ++ [Vocabulary.ruleSubtree, ruleset])
      (name : Vocabulary.isRuleName s.selectedName = true) (children : s.children = [])

/-- What the execution of a statement relies on. -/
structure Dispatchable (s : Statement) : Prop where
  repetitions : 1 ≤ s.repetitions ∧ s.repetitions ≤ maxRepeatCount
  names : s.verb ∈ [.read, .write, .delete, .rename, .enforce] →
    ∀ name ∈ s.hierarchy ++ s.childNames, ProperName name
  wildcard : s.hierarchy.count Vocabulary.wildcard ≤ 1
  rules : s.hierarchy.count Vocabulary.ruleSubtree ≤ 1
  children : s.DistinctChildren
  sites : s.SitesExist
  read : s.verb = .read → s.selectedValue = none ∧ ∀ child ∈ s.children, child.2 = ""
  write : s.verb = .write → ¬ [Vocabulary.ruleSubtree] <+: s.hierarchy ∧
    ¬ [Vocabulary.root, Vocabulary.ruleSubtree] <+: s.hierarchy ∧
    ∀ name ∈ s.selectedName :: s.childNames,
      Vocabulary.isReserved name = false ∧ name ≠ Vocabulary.root
  delete : s.verb = .delete → s.selectedValue = none ∧ s.children = [] ∧ Removable s.selectedName
  rename : s.verb = .rename → s.children = [] ∧ Removable s.selectedName ∧ ∃ name,
    s.selectedValue = some name ∧ ProperName name ∧ Vocabulary.isReserved name = false ∧
      Vocabulary.isKeyword name = false
  enforce : s.verb = .enforce → ∃ anchor ruleset,
    (anchor = [] ∨ anchor = [Vocabulary.root]) ∧ Vocabulary.isReserved ruleset = false ∧
      Vocabulary.isKeyword ruleset = false ∧ s.DefinesRules anchor ruleset ∧
      ∀ child ∈ s.children, Vocabulary.isRuleName child.1 = true

section Admitted

variable {s : Statement}

theorem Admitted.readDemands (h : s.Admitted) (hverb : s.verb = .read) :
    s.selectedValue = none ∧ ∀ child ∈ s.children, child.2 = "" := by
  have hfaults := h.verbFaults
  rw [Statement.verbFaults, hverb] at hfaults
  simp only [readFaults, List.append_eq_nil_iff, faultIf_eq_nil] at hfaults
  obtain ⟨hvalue, hchildren⟩ := hfaults
  refine ⟨by simpa using hvalue, fun child hchild => ?_⟩
  have := List.any_eq_false.mp hchildren child hchild
  simpa using this

theorem not_prefix_of_not_beginsAtRules (hbegins : s.beginsAtRules = false)
    (hreserved : Vocabulary.isReserved s.selectedName = false) :
    ¬ [Vocabulary.ruleSubtree] <+: s.hierarchy ∧
      ¬ [Vocabulary.root, Vocabulary.ruleSubtree] <+: s.hierarchy := by
  have hselected : s.selectedName ≠ Vocabulary.ruleSubtree := by
    intro heq
    rw [heq] at hreserved
    revert hreserved
    decide
  rw [beginsAtRules] at hbegins
  rw [hierarchy]
  split at hbegins
  · next hparents => simp [hparents, hselected.symm]
  · next first hparents =>
    have hfirst : first ≠ Vocabulary.ruleSubtree := by simpa using hbegins
    simp [hparents, hfirst.symm, hselected.symm]
  · next first second rest hparents =>
    simp only [Bool.or_eq_false_iff, Bool.and_eq_false_iff, beq_eq_false_iff_ne] at hbegins
    obtain ⟨hfirst, hsecond⟩ := hbegins
    rw [hparents]
    constructor
    · simp [Ne.symm hfirst]
    · intro hprefix
      simp only [List.cons_append, List.cons_prefix_cons] at hprefix
      rcases hsecond with hne | hne
      · exact hne hprefix.1.symm
      · exact hne hprefix.2.1.symm

theorem Admitted.writeDemands (h : s.Admitted) (hverb : s.verb = .write) :
    ¬ [Vocabulary.ruleSubtree] <+: s.hierarchy ∧
      ¬ [Vocabulary.root, Vocabulary.ruleSubtree] <+: s.hierarchy ∧
      ∀ name ∈ s.selectedName :: s.childNames,
        Vocabulary.isReserved name = false ∧ name ≠ Vocabulary.root := by
  have hfaults := h.verbFaults
  rw [Statement.verbFaults, hverb] at hfaults
  simp only [writeFaults, List.append_eq_nil_iff, faultIf_eq_nil, List.map_eq_nil_iff,
    List.filter_eq_nil_iff] at hfaults
  obtain ⟨hroot, hreserved⟩ := hfaults
  have hnames : ∀ name ∈ s.selectedName :: s.childNames,
      Vocabulary.isReserved name = false ∧ name ≠ Vocabulary.root := by
    intro name hname
    refine ⟨by simpa using hreserved name hname, ?_⟩
    rintro rfl
    simp only [namesRoot, Bool.or_eq_false_iff, beq_eq_false_iff_ne, List.contains_eq_mem,
      decide_eq_false_iff_not] at hroot
    rcases List.mem_cons.mp hname with heq | hchild
    · exact hroot.1 heq.symm
    · exact hroot.2 hchild
  have hbegins : s.beginsAtRules = false := by
    have hiff := h.beginsAtRules (.inl hverb)
    rw [hverb] at hiff
    simpa using hiff
  obtain ⟨hrules, hrooted⟩ :=
    not_prefix_of_not_beginsAtRules hbegins (hnames _ List.mem_cons_self).1
  exact ⟨hrules, hrooted, hnames⟩

theorem ne_root_of_not_namesRoot (h : s.namesRoot = false) :
    s.selectedName ≠ Vocabulary.root := by
  rw [namesRoot, Bool.or_eq_false_iff, beq_eq_false_iff_ne] at h
  exact h.1

theorem Admitted.deleteDemands (h : s.Admitted) (hverb : s.verb = .delete) :
    s.selectedValue = none ∧ s.children = [] ∧ Removable s.selectedName := by
  have hfaults := h.verbFaults
  rw [Statement.verbFaults, hverb] at hfaults
  simp only [deleteFaults, List.append_eq_nil_iff, faultIf_eq_nil] at hfaults
  obtain ⟨⟨⟨⟨hreserved, hrule⟩, hroot⟩, hvalue⟩, hchildren⟩ := hfaults
  exact ⟨by simpa using hvalue, by simpa using hchildren, hreserved, hrule,
    ne_root_of_not_namesRoot hroot⟩

theorem Admitted.renameDemands (h : s.Admitted) (hverb : s.verb = .rename) :
    s.children = [] ∧ Removable s.selectedName ∧ ∃ name, s.selectedValue = some name ∧
      name ≠ "" ∧ isValidName name = true ∧ Vocabulary.isReserved name = false ∧
      Vocabulary.isKeyword name = false := by
  have hfaults := h.verbFaults
  rw [Statement.verbFaults, hverb] at hfaults
  simp only [renameFaults, List.append_eq_nil_iff, faultIf_eq_nil] at hfaults
  obtain ⟨⟨⟨⟨hreserved, hrule⟩, hroot⟩, hchildren⟩, _⟩ := hfaults
  refine ⟨by simpa using hchildren, ⟨hreserved, hrule, ne_root_of_not_namesRoot hroot⟩, ?_⟩
  have hname := h.newNameDemands hverb
  rw [newName] at hname
  cases hvalue : s.selectedValue with
  | none => simp [hvalue] at hname
  | some name => exact ⟨name, rfl, by simpa [hvalue] using hname⟩

theorem eq_append_behindRoot (names : List String) :
    ∃ anchor, (anchor = [] ∨ anchor = [Vocabulary.root]) ∧ names = anchor ++ behindRoot names := by
  cases names with
  | nil => exact ⟨[], .inl rfl, rfl⟩
  | cons first rest =>
    by_cases hroot : first = Vocabulary.root
    · exact ⟨[Vocabulary.root], .inr rfl, by simp [behindRoot, hroot]⟩
    · exact ⟨[], .inl rfl, by simp [behindRoot, hroot]⟩

theorem Admitted.enforceDemands (h : s.Admitted) (hverb : s.verb = .enforce) :
    ∃ anchor ruleset, (anchor = [] ∨ anchor = [Vocabulary.root]) ∧
      Vocabulary.isReserved ruleset = false ∧ Vocabulary.isKeyword ruleset = false ∧
      s.DefinesRules anchor ruleset ∧
      ∀ child ∈ s.children, Vocabulary.isRuleName child.1 = true := by
  obtain ⟨ruleset, _, hbad, _, _, hdefining, hchildren⟩ := h.defining hverb
  obtain ⟨anchor, hanchor, hparents⟩ := eq_append_behindRoot s.parents
  obtain ⟨hreserved, hkeyword⟩ := Bool.or_eq_false_iff.mp hbad
  refine ⟨anchor, ruleset, hanchor, hreserved, hkeyword, ?_, hchildren⟩
  cases hdefining with
  | ruleset path name value => exact .ruleset (path ▸ hparents) name value
  | rule path name children => exact .rule (path ▸ hparents) name children

/-- Every name of a statement that is admitted is proper when it is trimmed. -/
theorem Admitted.properName (h : s.Admitted) {name : String}
    (hname : name ∈ s.hierarchy ++ s.childNames) (htrim : Text.trim name = name) :
    ProperName name := by
  rcases List.mem_append.mp hname with hpath | hchild
  · have hnode : isNodeName name = true := by
      rcases List.mem_append.mp hpath with hparent | hselected
      · exact h.isNodeName_parent name hparent
      · rw [List.mem_singleton.mp hselected]
        exact h.isNodeName_selectedName
    exact ⟨ne_blank_of_isNodeName hnode, htrim, h.isValidName_hierarchy name hpath⟩
  · obtain ⟨child, hmem, rfl⟩ := List.mem_map.mp hchild
    exact ⟨h.childNames child hmem, htrim, h.isValidName_child _ hchild⟩

/-- Rules that a definition lists are told apart by their names. -/
theorem Admitted.distinctChildren_of_enforce (h : s.Admitted) (hverb : s.verb = .enforce) :
    s.DistinctChildren := by
  obtain ⟨_, _, _, _, _, _, hrules⟩ := h.enforceDemands hverb
  intro i j name hij hi hj
  obtain ⟨child, hmem, rfl⟩ := List.mem_map.mp (List.mem_of_getElem? hi)
  obtain ⟨kind, hname⟩ := Vocabulary.exists_kind_of_isRuleName (hrules child hmem)
  have hcount := h.count_kind kind
  rw [hname] at hcount
  have hbefore : 0 < (s.childNames.take j).count child.1 := by
    apply List.count_pos_iff.mpr
    apply List.mem_of_getElem? (i := i)
    rw [List.getElem?_take_of_lt hij, hi]
  have hafter : 0 < (s.childNames.drop j).count child.1 := by
    apply List.count_pos_iff.mpr
    apply List.mem_of_getElem? (i := 0)
    rw [List.getElem?_drop, Nat.add_zero, hj]
  rw [← List.take_append_drop j s.childNames, List.count_append] at hcount
  omega

end Admitted

/-! ## Whole texts -/

theorem DistinctChildren.of_children_eq_nil {s : Statement} (h : s.children = []) :
    s.DistinctChildren := by
  intro i j name _ hi _
  simp [childNames, h] at hi

theorem DistinctChildren.of_sites {s t : Statement} (hs : s.DistinctChildren)
    (hchildren : t.children = s.children) (hsites : t.sites = s.sites) : t.DistinctChildren := by
  intro i j name hij hi hj
  rw [childNames, hchildren] at hi hj
  rw [hsites]
  exact hs i j name hij hi hj

/-- A statement without parts relies on its number of repetitions alone. -/
theorem dispatchable_of_bare (text : String) {verb : Verb} {n : Nat}
    (hverb : verb = .comment ∨ verb.isBare = true) (hn : 1 ≤ n ∧ n ≤ maxRepeatCount) :
    Dispatchable { text, verb, repetitions := n } := by
  have hother : ∀ v ∈ [Verb.read, .write, .delete, .rename, .enforce], verb ≠ v := by
    intro v hv
    rintro rfl
    revert hv hverb
    cases verb <;> decide
  have hhierarchy : ({ text, verb, repetitions := n } : Statement).hierarchy = [""] := rfl
  refine ⟨hn, ?_, by rw [hhierarchy]; decide, by rw [hhierarchy]; decide,
    .of_children_eq_nil rfl, ?_, ?_, ?_, ?_, ?_, ?_⟩
  · intro hmem
    exact absurd rfl (hother verb hmem)
  · intro site hsite
    cases hsite
  · exact fun h => absurd h (hother .read (by decide))
  · exact fun h => absurd h (hother .write (by decide))
  · exact fun h => absurd h (hother .delete (by decide))
  · exact fun h => absurd h (hother .rename (by decide))
  · exact fun h => absurd h (hother .enforce (by decide))

/-- Among the children of a statement that is checked, those are told apart that no keyword
names. -/
theorem distinctChildren_validate {s : Statement} (hs : s.DistinctChildren)
    (h : s.validate.verb ≠ .error) (ha : s.validate.Admitted) : s.validate.DistinctChildren := by
  by_cases henforce : s.validate.verb = .enforce
  · exact ha.distinctChildren_of_enforce henforce
  · by_cases hrename : s.validate.verb = .rename
    · exact .of_children_eq_nil (ha.renameDemands hrename).1
    · obtain ⟨verb, heq⟩ := validate_eq h
      rw [heq] at henforce hrename ⊢
      exact hs.of_sites rfl (if_neg (not_or.mpr ⟨hrename, henforce⟩))

theorem Admitted.dispatchable {s : Statement} (ha : s.Admitted)
    (hn : 1 ≤ s.repetitions ∧ s.repetitions ≤ maxRepeatCount)
    (htrim : ∀ name ∈ s.hierarchy ++ s.childNames, Text.trim name = name)
    (hvalue : ∀ value, s.selectedValue = some value → Text.trim value = value)
    (hchildren : s.DistinctChildren) (hsites : s.SitesExist) : s.Dispatchable where
  repetitions := hn
  names _ name hname := ha.properName hname (htrim name hname)
  wildcard := ha.count_wildcard
  rules := ha.count_rules
  children := hchildren
  sites := hsites
  read := ha.readDemands
  write := ha.writeDemands
  delete := ha.deleteDemands
  rename hverb := by
    obtain ⟨hnone, hremovable, name, hname, hblank, hvalid, hwords⟩ := ha.renameDemands hverb
    exact ⟨hnone, hremovable, name, hname, ⟨hblank, hvalue name hname, hvalid⟩, hwords⟩
  enforce := ha.enforceDemands

theorem Reading.dispatchable {text : String} {s : Statement} (h : Reading text s)
    (hne : s.verb ≠ .error) : s.Dispatchable := by
  cases h with
  | comment => exact dispatchable_of_bare text (.inl rfl) (by decide)
  | bare hdivides hbare => exact dispatchable_of_bare text (.inr hbare) hdivides.repetitions
  | @data n clauses hdivides hverb hfaults hchildren filter =>
    have ha := admitted_ofParts hdivides hverb hfaults hchildren hne
    obtain ⟨verb, heq⟩ := validate_eq hne
    have hhierarchy : (ofParts text n clauses filter).validate.hierarchy =
        (ofParts text n clauses filter).hierarchy := by
      rw [heq]
      rfl
    have hnames : (ofParts text n clauses filter).validate.childNames =
        (ofParts text n clauses filter).childNames := by
      rw [heq]
      rfl
    apply ha.dispatchable
    · rw [heq]
      exact hdivides.repetitions
    · intro name hname
      rw [hhierarchy, hnames, List.mem_append] at hname
      rcases hname with hname | hname
      · exact trimmed_hierarchy_ofParts name hname
      · exact trimmed_childNames_ofParts name hname
    · intro value hvalue
      rw [heq] at hvalue
      have hpart : (ofParts text n clauses filter).selectedValue = some value := hvalue
      exact trimmed_selectedValue_ofParts hpart
    · exact distinctChildren_validate (distinctChildren_ofParts hchildren) hne ha
    · exact sitesExist_ofParts.validate hne

/-- Reading gives every text a statement whose verb tells whether it has faults, and a statement
without faults is all that its execution relies on. -/
theorem parse_sound (text : String) :
    ((parse text).verb = .error ↔ (parse text).faults ≠ []) ∧ (parse text).messages.Nodup ∧
      ((parse text).verb = .error ∨ (parse text).Dispatchable) := by
  have hsettled := settled_parse text
  refine ⟨hsettled.verb, hsettled.messages, ?_⟩
  by_cases herror : (parse text).verb = .error
  · exact .inl herror
  · exact .inr ((reading_parse herror).dispatchable herror)

end Statement

end TreeDatabase
