import TreeDatabase.Proofs.Ruleset.Preservation
import TreeDatabase.Proofs.Statement.Soundness

/-!
# Who may touch the rules

A write leaves the rule subtree as it is, and a definition of rules leaves as it is all that is not
the rule node, the ruleset that it names, or a rule of this ruleset. Both hold in every store that
statements can lead to, renamings included.
-/

namespace TreeDatabase

open Store

namespace Store

variable {s t u : Store}

/-! ## The shape of the rule subtree -/

/-- A renaming leaves the rule subtree its shape when its new name is not that of the rule node. -/
theorem RuleShape.of_relabels (hshape : s.RuleShape) {newName : String}
    (hr : Statement.Relabels newName s t) (hname : newName ≠ Vocabulary.ruleSubtree) :
    t.RuleShape where
  top := by
    intro names id hl
    obtain ⟨p, n, m, hp, hn, hmem, hm, hrule⟩ := hl.parent
    obtain ⟨olds, hold, hnames⟩ := hr.leads hp
    obtain ⟨n', hn', _, _, hchildren, _⟩ := hr p n hn
    obtain ⟨m', hm', _, _, _, hsame⟩ := hr id m hm
    have hrule' : m'.name = Vocabulary.ruleSubtree := by
      rcases hsame with hsame | hsame
      · exact hsame.symm.trans hrule
      · exact absurd (hsame.symm.trans hrule) hname
    have hl' : s.Leads (olds ++ [Vocabulary.ruleSubtree]) id :=
      hrule' ▸ hold.child hn' (hchildren ▸ hmem) hm'
    rw [hshape.top hl'] at hnames
    exact List.forall₂_nil_right_iff.mp hnames
  depth := by
    intro names id hl
    obtain ⟨olds, hold, hnames⟩ := hr.leads hl
    cases hnames with
    | @cons _ old _ olds hfirst hrest =>
      have hrule : old = Vocabulary.ruleSubtree := (hfirst.resolve_right hname.symm).symm
      rw [hrest.length_eq]
      exact hshape.depth (hrule ▸ hold)

/-- Every statement leaves the rule subtree its shape. -/
theorem RuleShape.of_executes (hshape : s.RuleShape) (h : s.Coherent) (ht : t.Coherent)
    {statement : Statement} (hexecutes : statement.Executes s t) : t.RuleShape := by
  cases hexecutes with
  | unchanged => exact hshape
  | written admitted verb writes requested _ =>
    have houtside := admitted.writes_outside verb h hshape writes requested
    exact writes.ruleShape_of_outside h hshape fun w hw =>
      ⟨(houtside w hw).1, (houtside w hw).2.1⟩
  | deleted _ _ prunes => exact prunes.ruleShape h ht hshape
  | renamed admitted verb relabels =>
    obtain ⟨_, _, hreserved, _⟩ := admitted.newNameDemands verb
    exact hshape.of_relabels relabels (Statement.Admitted.ne_ruleSubtree hreserved)
  | enforced _ _ enforced => exact ruleShape_of_enforced hshape h enforced

/-! ## Places that stay as they are -/

/-- At the places that satisfy a condition the same nodes stand: they have the same handles, and
each the same name, value, parent and children. -/
def SameAt (place : List String → Prop) (s t : Store) : Prop :=
  ∀ names, place names → ∀ id n,
    s.Leads names id ∧ s.get? id = some n ↔ t.Leads names id ∧ t.get? id = some n

theorem SameAt.refl (place : List String → Prop) (s : Store) : SameAt place s s :=
  fun _ _ _ _ => Iff.rfl

theorem SameAt.trans {place : List String → Prop} (h : SameAt place s t) (h' : SameAt place t u) :
    SameAt place s u :=
  fun names hplace id n => (h names hplace id n).trans (h' names hplace id n)

/-- Writes leave places as they are at which they neither write a node nor one below it. -/
theorem Writes.sameAt {place : List String → Prop} {ws : List NodeWrite} (hw : s.Writes ws t)
    (h : Coherent s) (hplace : ∀ w ∈ ws, ∀ names, place names →
      ¬ t.Leads names w.id ∧ ¬ t.Leads names w.parent) : SameAt place s t := by
  have ht := hw.coherent h
  have huntouched : ∀ {names id}, place names → t.Leads names id → t.get? id = s.get? id := by
    intro names id hnames hl
    apply hw.untouched
    intro w hmem
    obtain ⟨hid, hparent⟩ := hplace w hmem names hnames
    exact ⟨fun heq => hid (heq ▸ hl), fun heq => hparent (heq ▸ hl)⟩
  intro names hnames id n
  constructor
  · intro ⟨hl, hn⟩
    have hl' := hw.leads_kept h hl
    exact ⟨hl', (huntouched hnames hl').trans hn⟩
  · intro ⟨hl, hm⟩
    have hn : s.get? id = some n := (huntouched hnames hl).symm.trans hm
    exact ⟨(h.leads_congr ht hn hm rfl names).mp hl, hn⟩

/-- The places in the rule subtree. -/
def InRules (names : List String) : Prop := names.head? = some Vocabulary.ruleSubtree

/-- The places that the definition of a ruleset may change: the rule node, the ruleset, and the
rules in it. -/
def InDefinition (ruleset : String) (names : List String) : Prop :=
  names = [Vocabulary.ruleSubtree] ∨ names = [Vocabulary.ruleSubtree, ruleset] ∨
    ∃ rule, names = [Vocabulary.ruleSubtree, ruleset, rule]

theorem Coherent.underRules_of_inRules (h : Coherent s) {names : List String} {id : NodeId}
    (hin : InRules names) (hl : s.Leads names id) : s.UnderRules id := by
  cases names with
  | nil => cases hin
  | cons first rest =>
    have hfirst : first = Vocabulary.ruleSubtree := by simpa [InRules] using hin
    exact h.underRules_iff_leads.mpr ⟨rest, hfirst ▸ hl⟩

/-! ## Definitions of a ruleset -/

/-- One store is another with a definition of a ruleset. No node is gone or has moved, the root may
have got the rule node as a child, and elsewhere than in the definition all is as before. -/
structure Redefines (ruleset : String) (s t : Store) : Prop where
  kept : ∀ {names id}, s.Leads names id → t.Leads names id
  root : ∃ n m, s.get? root = some n ∧ t.get? root = some m ∧
    m = { n with children := m.children } ∧ n.children <+: m.children ∧
    ∀ c ∈ m.children, c ∈ n.children ∨ t.Leads [Vocabulary.ruleSubtree] c
  others : SameAt (fun names => names ≠ [] ∧ ¬ InDefinition ruleset names) s t

theorem Coherent.redefines_refl (h : Coherent s) (ruleset : String) : Redefines ruleset s s := by
  obtain ⟨r, hr, _⟩ := h.tree.root
  exact ⟨id, ⟨r, r, hr, hr, rfl, List.prefix_refl _, fun c hc => .inl hc⟩, .refl _ s⟩

theorem Redefines.trans {ruleset : String} (h : Redefines ruleset s t)
    (h' : Redefines ruleset t u) : Redefines ruleset s u where
  kept hl := h'.kept (h.kept hl)
  root := by
    obtain ⟨n, m, hn, hm, hsame, hprefix, hnew⟩ := h.root
    obtain ⟨m', k, hm', hk, hsame', hprefix', hnew'⟩ := h'.root
    rw [hm] at hm'
    cases hm'
    refine ⟨n, k, hn, hk, by rw [hsame', hsame], hprefix.trans hprefix', fun c hc => ?_⟩
    rcases hnew' c hc with hc | hl
    · exact (hnew c hc).imp_right h'.kept
    · exact .inr hl
  others := h.others.trans h'.others

theorem Coherent.redefines_of_enforced (h : Coherent s) {statement : Statement} {ruleset : String}
    {ws : List NodeWrite} (he : statement.Enforced ruleset s t ws) : Redefines ruleset s t := by
  have hw := he.writes
  have ht := hw.coherent h
  have hwritten : ∀ w ∈ ws, ∀ names, t.Leads names w.id → InDefinition ruleset names := by
    intro w hmem names hl
    rcases leads_of_enforced h he hmem hl with ⟨heq, _⟩ | ⟨heq, _⟩ | ⟨heq, _⟩
    · exact .inl heq
    · exact .inr (.inl heq)
    · exact .inr (.inr ⟨w.name, heq⟩)
  have hparent : ∀ w ∈ ws, ∀ names, names ≠ [] → t.Leads names w.parent →
      InDefinition ruleset names := by
    intro w hmem names hne hl
    obtain ⟨above, habove, hcases⟩ := leads_of_inRuleset ht (he.places w hmem)
    obtain rfl := ht.leads_unique hl habove
    rcases hcases with ⟨hnil, _⟩ | ⟨hrules, _⟩ | ⟨hset, _⟩
    · exact absurd hnil hne
    · exact .inl hrules
    · exact .inr (.inl hset)
  refine ⟨?_, ?_, ?_⟩
  · intro names id hl
    exact hw.leads_kept h hl
  · obtain ⟨r, hr, _⟩ := h.tree.root
    obtain ⟨m, hm, _⟩ := hw.kept hr
    have hroot : ∀ w ∈ ws, Store.root ≠ w.id := by
      intro w hmem heq
      have hnil := hwritten w hmem [] (heq ▸ .root)
      simp [InDefinition] at hnil
    obtain ⟨hsame, hprefix, hnew⟩ := hw.grown hr hm hroot
    refine ⟨r, m, hr, hm, hsame, hprefix, fun c hc => ?_⟩
    rcases hnew c hc with hc | ⟨w, hmem, hparent, rfl⟩
    · exact .inl hc
    · obtain ⟨above, habove, hcases⟩ := leads_of_inRuleset ht (he.places w hmem)
      rw [hparent] at habove
      obtain rfl := ht.leads_unique habove .root
      rcases hcases with ⟨_, hname⟩ | ⟨hno, _⟩ | ⟨hno, _⟩
      · right
        have hchild := hw.child?_of_mem hmem
        rw [hparent, hname] at hchild
        exact ht.leads_singleton_iff.mpr hchild
      · cases hno
      · cases hno
  · apply hw.sameAt h
    intro w hmem names ⟨hne, hout⟩
    exact ⟨fun hl => hout (hwritten w hmem names hl),
      fun hl => hout (hparent w hmem names hne hl)⟩

end Store

namespace Statement

theorem Defining.unique {s : Statement} {ruleset other : String} (h : s.Defining ruleset)
    (h' : s.Defining other) : ruleset = other := by
  cases h with
  | ruleset path name _ =>
    cases h' with
    | ruleset _ name' _ => exact name.symm.trans name'
    | rule path' _ _ =>
      rw [path] at path'
      cases path'
  | rule path _ _ =>
    cases h' with
    | ruleset path' _ _ =>
      rw [path] at path'
      cases path'
    | rule path' _ _ =>
      rw [path] at path'
      cases path'
      rfl

/-- A definition changes the ruleset that it names. -/
theorem Executes.redefines {s : Statement} {ruleset : String} {store t : Store}
    (he : s.Executes store t) (h : store.Coherent) (hverb : s.verb = .enforce)
    (hdefining : s.Defining ruleset) : Redefines ruleset store t := by
  cases he with
  | unchanged => exact h.redefines_refl ruleset
  | written _ verb _ _ _ => simp [verb] at hverb
  | deleted _ verb _ => simp [verb] at hverb
  | renamed _ verb _ => simp [verb] at hverb
  | enforced _ _ enforced =>
    have hsame := enforced.defining.unique hdefining
    exact hsame ▸ h.redefines_of_enforced enforced

/-- A write leaves the rule subtree as it is. -/
theorem Executes.sameAt_inRules {s : Statement} {store t : Store} (he : s.Executes store t)
    (h : store.Coherent) (hshape : store.RuleShape) (hverb : s.verb = .write) :
    SameAt InRules store t := by
  cases he with
  | unchanged => exact .refl _ store
  | written admitted verb writes requested _ =>
    have houtside := admitted.writes_outside verb h hshape writes requested
    have ht := writes.coherent h
    apply writes.sameAt h
    intro w hmem names hin
    obtain ⟨_, hparent, hid⟩ := houtside w hmem
    exact ⟨fun hl => hid (ht.underRules_of_inRules hin hl),
      fun hl => hparent (ht.underRules_of_inRules hin hl)⟩
  | deleted _ verb _ => simp [verb] at hverb
  | renamed _ verb _ => simp [verb] at hverb
  | enforced _ verb _ => simp [verb] at hverb

end Statement

/-! ## Runs -/

namespace Engine

theorem runTexts_append {σ : Type} (r : Resolver σ) (e : Engine σ) (texts : List String)
    (text : String) :
    e.runTexts r (texts ++ [text]) = ((e.runTexts r texts).execute r text).1 := by
  rw [runTexts, List.foldl_append]
  rfl

theorem target?_parse {σ : Type} (e : Engine σ) (text : String) :
    Ruleset.target? (e.parse text) = Ruleset.target? (Statement.parse text) := by
  rw [parse]
  generalize Statement.parse text = s
  rfl

/-- Whatever statements are executed, the rule subtree has its shape afterwards. -/
theorem ruleShape_storeAfter (format : DataFormat) (texts : List String) :
    (storeAfter format texts).Coherent ∧ (storeAfter format texts).RuleShape := by
  apply runTexts_literal
  · intro _ _ _ s t h ht hshape hexecutes
    exact hshape.of_executes h ht hexecutes
  · exact coherent_empty
  · exact ruleShape_empty

section

variable {e : Engine Unit} {text : String}

theorem sameAt_execute (h : e.store.Coherent) (hshape : e.store.RuleShape)
    (hverb : (Statement.parse text).verb = .write) :
    SameAt InRules e.store (e.execute .literal text).1.store := by
  have hstep : ∀ s t, s.Coherent → t.Coherent → s.RuleShape ∧ SameAt InRules e.store s →
      (e.parse text).Executes s t → t.RuleShape ∧ SameAt InRules e.store t := by
    intro s t hs ht ⟨hshape, hsame⟩ hexecutes
    have hwrite : (e.parse text).verb = .write := (e.verb_parse text).trans hverb
    exact ⟨hshape.of_executes hs ht hexecutes,
      hsame.trans (hexecutes.sameAt_inRules hs hshape hwrite)⟩
  exact (execute_literal e text hstep h ⟨hshape, .refl _ _⟩).2.1.2

theorem redefines_execute (h : e.store.Coherent)
    (hverb : (Statement.parse text).verb = .enforce) :
    ∃ ruleset, Ruleset.target? (Statement.parse text) = some ruleset ∧
      Redefines ruleset e.store (e.execute .literal text).1.store := by
  have henforce : (e.parse text).verb = .enforce := (e.verb_parse text).trans hverb
  have ha : (e.parse text).Admitted := by
    refine (parse_cases e text).resolve_left ?_
    simp [sessionResponse?, henforce]
  obtain ⟨ruleset, htarget, _, _, _, hdefining, _⟩ := ha.defining henforce
  refine ⟨ruleset, (e.target?_parse text).symm.trans htarget, ?_⟩
  have hstep : ∀ s t, s.Coherent → t.Coherent → Redefines ruleset e.store s →
      (e.parse text).Executes s t → Redefines ruleset e.store t :=
    fun s t hs _ hold hexecutes => hold.trans (hexecutes.redefines hs henforce hdefining)
  exact (execute_literal e text hstep h (h.redefines_refl ruleset)).2.1

end

/-- In every store that statements lead to, a write leaves all nodes of the rule subtree as they
are, and a definition of rules concerns none but the rule node, the ruleset that it names and the
rules in this one. -/
theorem rules_confined (format : DataFormat) (texts : List String) (text : String) :
    ((Statement.parse text).verb = .write →
      SameAt InRules (storeAfter format texts) (storeAfter format (texts ++ [text]))) ∧
    ((Statement.parse text).verb = .enforce →
      ∃ ruleset, Ruleset.target? (Statement.parse text) = some ruleset ∧
        Redefines ruleset (storeAfter format texts) (storeAfter format (texts ++ [text]))) := by
  obtain ⟨h, hshape⟩ := ruleShape_storeAfter format texts
  rw [storeAfter, storeAfter, runTexts_append]
  exact ⟨sameAt_execute h hshape, redefines_execute h⟩

theorem rules_confined_age :
    let texts := ["write rule.age: type=integer", "write age=30", "rename age=years"]
    SameAt InRules (storeAfter .basic texts) (storeAfter .basic (texts ++ ["write Child=31"])) ∧
      Redefines "years" (storeAfter .basic texts)
        (storeAfter .basic (texts ++ ["write Root.rule.years: max=99"])) := by
  intro texts
  have htarget : Ruleset.target? (Statement.parse "write Root.rule.years: max=99") =
      some "years" := by decide +kernel
  constructor
  · exact (rules_confined .basic texts "write Child=31").1 (by decide +kernel)
  · obtain ⟨ruleset, hruleset, hredefines⟩ :=
      (rules_confined .basic texts "write Root.rule.years: max=99").2 (by decide +kernel)
    rw [htarget, Option.some_inj] at hruleset
    exact hruleset ▸ hredefines

end Engine

end TreeDatabase
