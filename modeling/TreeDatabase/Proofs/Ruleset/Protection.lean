import TreeDatabase.Proofs.Engine.Alphabet
import TreeDatabase.Proofs.Engine.Writing
import TreeDatabase.Proofs.Operation.Acceptance

/-!
# Nodes with reserved names

In the stores that statements lead to, reserved words name the rule node at the top and the rules in
the rulesets, and no other nodes. A deletion or a renaming that was admitted does not give such a
word; it can reach the rules of one ruleset alone, through the wildcard.
-/

namespace TreeDatabase

open Store

namespace Store

variable {s t : Store}

/-- A reserved word is the name of the rule node at the top, or of a rule in a ruleset. -/
def ReservedInPlace (s : Store) : Prop :=
  ∀ above name id, s.Leads (above ++ [name]) id → Vocabulary.isReserved name = true →
    above = [] ∧ name = Vocabulary.ruleSubtree ∨
      Vocabulary.isRuleName name = true ∧ ∃ ruleset, above = [Vocabulary.ruleSubtree, ruleset]

theorem reservedInPlace_empty : empty.ReservedInPlace := by
  intro above name id hl
  obtain ⟨p, n, _, _, hn, hmem, _⟩ := hl.parent
  rw [(get?_empty hn).2] at hmem
  cases hmem

/-- Writes keep the reserved words in their places that do so with the nodes that they make. -/
theorem ReservedInPlace.of_writes (hr : s.ReservedInPlace) (h : s.Coherent) {ws : List NodeWrite}
    (hw : s.Writes ws t) (hnew : ∀ w ∈ ws, s.get? w.id = none →
      Vocabulary.isReserved w.name = true → w.parent = root ∧ w.name = Vocabulary.ruleSubtree ∨
        Vocabulary.isRuleName w.name = true ∧ ∃ ruleset, t.ruleset? ruleset = some w.parent) :
    t.ReservedInPlace := by
  have ht := hw.coherent h
  intro above name id hl hreserved
  obtain ⟨m, hm, _⟩ := ht.path_of_leads hl
  cases hn : s.get? id with
  | some n =>
    obtain ⟨k, hk, _, hpath, _⟩ := hw.kept hn
    exact hr above name id ((h.leads_congr ht hn hk hpath _).mp hl) hreserved
  | none =>
    rcases hw.value h hm with ⟨_, n, hn', _⟩ | ⟨w, hmem, rfl, hname, _⟩
    · rw [hn] at hn'
      cases hn'
    · obtain ⟨p, hp, hchild⟩ := ht.leads_child_iff.mp hl
      obtain ⟨k, hk, hparent, hkname⟩ := ht.child?_iff_parent.mp hchild
      obtain ⟨k', hk', hparent', hkname'⟩ := ht.child?_iff_parent.mp (hw.child?_of_mem hmem)
      rw [hk] at hk'
      cases hk'
      rw [hparent] at hparent'
      cases hparent'
      have hwname : w.name = name := hkname'.symm.trans hkname
      rcases hnew w hmem hn (hwname ▸ hreserved) with ⟨hroot, hrule⟩ | ⟨hrule, ruleset, hset⟩
      · exact .inl ⟨ht.leads_unique hp (hroot ▸ .root), hwname ▸ hrule⟩
      · exact .inr ⟨hwname ▸ hrule, ruleset,
          ht.leads_unique hp (ht.leads_ruleset_iff.mpr hset)⟩

theorem ReservedInPlace.of_prunes (hr : s.ReservedInPlace) (h : s.Coherent) (ht : t.Coherent)
    (hp : s.Prunes t) : t.ReservedInPlace :=
  fun above name id hl => hr above name id (hp.leads h ht hl)

/-- A renaming keeps the reserved words in their places when neither the rule node is renamed nor
a node is given such a word. -/
theorem ReservedInPlace.of_relabeled (hr : s.ReservedInPlace) (h : s.Coherent)
    {newName : String} {renamed : List NodeId}
    (hrelabeled : Statement.Relabeled newName s renamed t)
    (hnew : Vocabulary.isReserved newName = false)
    (hrules : ∀ id ∈ renamed, ∀ n, s.get? id = some n → n.parent = some root →
      n.name ≠ Vocabulary.ruleSubtree) : t.ReservedInPlace := by
  intro above name id hl hreserved
  obtain ⟨p, n, m, hp, hn, hmem, hm, rfl⟩ := hl.parent
  obtain ⟨olds, hold, hnames⟩ := hrelabeled.relabels.leads hp
  obtain ⟨n', hn', _, _, hchildren, _⟩ := hrelabeled.relabels p n hn
  obtain ⟨m', hm', _, _, _, hsame⟩ := hrelabeled.relabels id m hm
  have hname : m'.name = m.name := by
    refine (hsame.resolve_right fun heq => ?_).symm
    rw [heq, hnew] at hreserved
    cases hreserved
  have hbefore : s.Leads (olds ++ [m.name]) id :=
    hname ▸ hold.child hn' (hchildren ▸ hmem) hm'
  rcases hr olds m.name id hbefore hreserved with ⟨rfl, hrule⟩ | ⟨hrule, ruleset, rfl⟩
  · exact .inl ⟨List.forall₂_nil_right_iff.mp hnames, hrule⟩
  · refine .inr ⟨hrule, ?_⟩
    have hunder : t.UnderRules id :=
      (hrelabeled.underRules_iff h (Statement.Admitted.ne_ruleSubtree hnew) hrules).mpr
        (h.underRules_iff_leads.mpr ⟨[ruleset, m.name], hbefore⟩)
    obtain ⟨names, hl'⟩ := hrelabeled.coherent.underRules_iff_leads.mp hunder
    have heq := hrelabeled.coherent.leads_unique hl hl'
    cases hnames with
    | @cons first _ rest _ _ hrest =>
      cases hrest with
      | @cons second _ rest _ _ hnil =>
        obtain rfl := List.forall₂_nil_right_iff.mp hnil
        rw [List.cons_append, List.cons.injEq] at heq
        exact ⟨second, by rw [heq.1]⟩

end Store

namespace Statement

variable {s : Statement} {store t : Store}

/-- No statement but a renaming brings a reserved word to another place. -/
theorem Executes.reservedInPlace (he : s.Executes store t) (hverb : s.verb ≠ .rename)
    (h : store.Coherent) (hr : store.ReservedInPlace) : t.ReservedInPlace := by
  cases he with
  | unchanged => exact hr
  | written admitted verb writes requested _ =>
    obtain ⟨hselected, hchildren⟩ := admitted.not_isReserved verb
    refine hr.of_writes h writes fun w hmem hfresh hreserved => ?_
    have hname : Vocabulary.isReserved w.name = false := by
      rcases requested w hmem with htarget | ⟨_, _, _, _, child, hchild, hname, _⟩
      · have hwritten := htarget.name
        rw [writtenNames] at hwritten
        split at hwritten
        · -- the wildcard stands for children that are there
          next hw =>
          obtain ⟨n, hn, hname⟩ := List.mem_map.mp hwritten
          obtain ⟨c, hc, hn⟩ := List.mem_filterMap.mp hn
          obtain ⟨p, hp, hmem'⟩ := mem_children_iff.mp (mem_children_of_mem_targets h hc)
          have hexists := writes.child?_eq h hmem
          rw [hfresh, h.child?_iff.mpr ⟨p, n, hp, hmem', hn, hname⟩] at hexists
          cases hexists
        · rw [List.mem_singleton.mp hwritten]
          exact hselected
      · rw [hname]
        exact hchildren child hchild
    rw [hname] at hreserved
    cases hreserved
  | deleted _ _ prunes => exact hr.of_prunes h (s.delete_removes h).1 prunes
  | renamed _ verb _ => exact absurd verb hverb
  | enforced _ _ enforced =>
    refine hr.of_writes h enforced.writes fun w hmem _ hreserved => ?_
    cases enforced.places w hmem with
    | rules parent name => exact .inl ⟨parent, name⟩
    | ruleset parent name =>
      have hbad := enforced.bad
      rw [isBadRulesetName, ← name, hreserved] at hbad
      cases hbad
    | rule parent name => exact .inr ⟨name, _, parent⟩

/-! ## Reserved targets -/

/-- The wildcard stands for the rules of a ruleset, and all of them are asked for. -/
structure SelectsRules (s : Statement) (ruleset : String) : Prop where
  name : s.selectedName = Vocabulary.wildcard
  path : behindRoot s.parents = [Vocabulary.ruleSubtree, ruleset]
  filter : s.filter.isEmpty = true

theorem isReserved_kind (kind : RuleKind) : Vocabulary.isReserved kind.name = true := by
  cases kind <;> decide

theorem mem_of_mem_behindRoot {segments : List String} {name : String}
    (h : name ∈ behindRoot segments) : name ∈ segments := by
  obtain ⟨anchor, _, heq⟩ := eq_append_behindRoot segments
  rw [heq]
  exact List.mem_append_right anchor h

theorem Admitted.wildcard_not_mem_parents (ha : s.Admitted)
    (hname : s.selectedName = Vocabulary.wildcard) : Vocabulary.wildcard ∉ s.parents := by
  have hcount := ha.count_wildcard
  rw [hierarchy, hname, List.count_append, List.count_singleton_self] at hcount
  rw [← List.count_eq_zero]
  omega

/-- The rules of a ruleset are hit by a statement that selects all of them. -/
theorem Admitted.hits_of_selectsRules (ha : s.Admitted) (hverb : s.verb ≠ .write)
    (h : store.Coherent) {ruleset name : String} (hs : s.SelectsRules ruleset)
    (hroot : ruleset ≠ Vocabulary.root) {id : NodeId}
    (hl : store.Leads [Vocabulary.ruleSubtree, ruleset, name] id) : s.Hits store id := by
  have hwild := ha.wildcard_not_mem_parents hs.name
  have hbehind : Vocabulary.wildcard ∉ behindRoot s.parents :=
    fun hmem => hwild (mem_of_mem_behindRoot hmem)
  have hrules : Vocabulary.ruleSubtree ∈ s.parents :=
    mem_of_mem_behindRoot (by rw [hs.path]; exact List.mem_cons_self)
  have hincludes : s.includesRules = true := by
    rw [includesRules, List.contains_iff_mem, hierarchy]
    exact List.mem_append_left _ hrules
  obtain ⟨parent, hparent, hchild⟩ :=
    h.leads_child_iff.mp (show store.Leads ([_, _] ++ [name]) id from hl)
  obtain ⟨n, _, hn, hmem, _⟩ := h.child?_iff.mp hchild
  have hfound : (n.path, parent) ∈ s.parentNodes store := by
    rw [parentNodes, if_pos (List.ne_nil_of_mem hrules), hincludes, h.mem_resolvePath_iff]
    refine ⟨?_, (finds_iff_leads hbehind).mpr (hs.path ▸ hparent), n, hn, rfl⟩
    rw [hs.path, List.mem_cons, List.mem_singleton, not_or]
    exact ⟨by decide, hroot.symm⟩
  have htarget : id ∈ s.targets store parent := by
    rw [targets, if_pos (by simp [selectsAll, hs.name]), hincludes]
    simpa using mem_children_iff.mpr ⟨n, hn, hmem⟩
  refine ⟨(n.path, parent), mem_candidateParents_iff.mpr ⟨hfound, ?_⟩, htarget, ?_⟩
  · rw [suits, if_neg hverb, Bool.not_eq_true', List.isEmpty_eq_false_iff]
    exact List.ne_nil_of_mem htarget
  · rw [passes, hs.filter, Bool.true_or]

/-- A deletion or a renaming that hits a node with a reserved name selects the rules of a ruleset,
and the node is one of these. -/
theorem Admitted.selectsRules_of_hits (ha : s.Admitted)
    (hverb : s.verb = .delete ∨ s.verb = .rename) (h : store.Coherent)
    (hshape : store.RuleShape) (hr : store.ReservedInPlace) {id : NodeId} {n : Node}
    (hn : store.get? id = some n) (hhits : s.Hits store id)
    (hreserved : Vocabulary.isReserved n.name = true) :
    Vocabulary.isRuleName n.name = true ∧ ∃ ruleset, s.SelectsRules ruleset ∧
      ruleset ≠ Vocabulary.root ∧ store.Leads [Vocabulary.ruleSubtree, ruleset, n.name] id := by
  obtain ⟨_, hselected, _, hroot⟩ := ha.removable hverb
  have hhit := hhits
  obtain ⟨⟨path, parent⟩, hentry, htarget, hpasses⟩ := hhit
  obtain ⟨p, m, hp, hmem, hm, hcases⟩ := mem_targets_cases h hroot htarget
  rw [hn] at hm
  cases hm
  obtain ⟨above, habove⟩ := h.exists_leads hp
  have hl := habove.child hp hmem hn
  rcases hr above n.name id hl hreserved with ⟨rfl, hrule⟩ | ⟨hrule, ruleset, rfl⟩
  · have hparent := h.tree.parent_of_mem_children hp hmem hn
    rw [habove.eq_root] at hparent
    exact absurd hrule (ha.name_ne_of_hits hverb h hhits hn hparent)
  · refine ⟨hrule, ruleset, ?_⟩
    obtain ⟨hwildcard, hincludes⟩ := hcases.resolve_left fun heq => by
      rw [heq, hselected] at hreserved
      cases hreserved
    have hunder : store.UnderRules id := h.underRules_iff_leads.mpr ⟨_, hl⟩
    have hincludes := hincludes.resolve_right fun hnot => hnot hunder
    have hrules : Vocabulary.ruleSubtree ∈ s.parents := by
      rw [includesRules, List.contains_iff_mem, hierarchy, List.mem_append, List.mem_singleton,
        hwildcard] at hincludes
      exact hincludes.resolve_right (by decide)
    have hfound := (mem_candidateParents_iff.mp hentry).1
    rw [parentNodes, if_pos (List.ne_nil_of_mem hrules), hincludes, h.mem_resolvePath_iff] at hfound
    obtain ⟨hanchor, hf, _⟩ := hfound
    have hbehind : Vocabulary.wildcard ∉ behindRoot s.parents :=
      fun hmem => ha.wildcard_not_mem_parents hwildcard (mem_of_mem_behindRoot hmem)
    have hpath := h.leads_unique ((finds_iff_leads hbehind).mp hf) habove
    have hset : store.ruleset? ruleset = some parent := h.leads_ruleset_iff.mp habove
    rw [passes_rule h hshape hset (mem_children_iff.mpr ⟨p, hp, hmem⟩)] at hpasses
    rw [hpath, List.mem_cons, List.mem_singleton, not_or] at hanchor
    exact ⟨⟨hwildcard, hpath, hpasses⟩, Ne.symm hanchor.2, hl⟩

end Statement

/-! ## Runs -/

/-- What the shape of the rule subtree and the places of reserved words are in the stores that
statements lead to. -/
structure Store.WellPlaced (s : Store) : Prop where
  coherent : s.Coherent
  shape : s.RuleShape
  reserved : s.ReservedInPlace

namespace Engine

open Resolver

variable {e : Engine Unit} {s : Statement}

/-- A deletion or a renaming does what its execution as it is does. -/
theorem run_literal_eq (ha : s.Admitted) (hverb : s.verb = .delete ∨ s.verb = .rename)
    {t : Store} {response : Response} (hok : s.executeOn e.store = .ok (t, response)) :
    e.run literal s = ({ e with store := t }, response) := by
  have hsession : sessionResponse? s = none := by
    rcases hverb with hv | hv <;> simp [sessionResponse?, hv]
  have hchildren : s.childNames.Nodup := by
    rw [Statement.childNames, (ha.removable hverb).1]
    exact List.nodup_nil
  exact run_literal_of_ok hsession hchildren hok

/-- What the execution of a deletion makes of a store. -/
theorem run_cleared (h : e.store.Coherent) (ha : s.Admitted) (hverb : s.verb = .delete) :
    ∃ removed, s.Clears e.store removed (e.run literal s).1.store (e.run literal s).2 := by
  have hok : s.executeOn e.store = .ok (s.delete e.store) := by
    rw [Statement.executeOn, hverb]
  rw [run_literal_eq ha (.inl hverb) hok]
  exact s.delete_clears h

/-- What the execution of a renaming makes of a store: nodes that it hits get its new name. -/
theorem run_relabeled (h : e.store.Coherent) (ha : s.Admitted) (hverb : s.verb = .rename) :
    ∃ renamed, Statement.Relabeled s.newName e.store renamed (e.run literal s).1.store ∧
      ∀ id ∈ renamed, s.Hits e.store id := by
  obtain ⟨t, response, renamed, hok, hrelabeled, hhits⟩ := ha.rename_relabeled hverb h
  have hexecute : s.executeOn e.store = .ok (t, response) := by
    rw [Statement.executeOn, hverb]
    exact hok
  rw [run_literal_eq ha (.inr hverb) hexecute]
  exact ⟨renamed, hrelabeled, hhits⟩

/-- Every statement keeps the reserved words in their places. -/
theorem run_wellPlaced (hs : (sessionResponse? s).isSome = true ∨ s.Admitted)
    (h : e.store.WellPlaced) : (e.run literal s).1.store.WellPlaced := by
  obtain ⟨ht, hexecutes, _⟩ := run_literal e hs h.coherent
  refine ⟨ht, h.shape.of_executes h.coherent ht hexecutes, ?_⟩
  by_cases hverb : s.verb = .rename
  · have ha : s.Admitted := hs.resolve_left (by simp [sessionResponse?, hverb])
    obtain ⟨renamed, hrelabeled, hhits⟩ := run_relabeled h.coherent ha hverb
    exact h.reserved.of_relabeled h.coherent hrelabeled (ha.newNameDemands hverb).2.2.1
      fun id hid n hn => ha.name_ne_of_hits (.inr hverb) h.coherent (hhits id hid) hn
  · exact hexecutes.reservedInPlace hverb h.coherent h.reserved

theorem execute_wellPlaced (e : Engine Unit) (text : String) (h : e.store.WellPlaced) :
    (e.execute literal text).1.store.WellPlaced := by
  have hs := parse_cases e text
  rw [execute]
  generalize e.parse text = s at hs
  exact runTimes_keeps (fun _ => run_wellPlaced hs) _ { e with persist := false } _ h

theorem wellPlaced_runTexts (format : DataFormat) (texts : List String) :
    (runTexts literal { resolverState := (), format } texts).store.WellPlaced :=
  runTexts_keeps execute_wellPlaced texts _
    ⟨Store.coherent_empty, Store.ruleShape_empty, Store.reservedInPlace_empty⟩

theorem isReserved_of_isRuleName {name : String} (h : Vocabulary.isRuleName name = true) :
    Vocabulary.isReserved name = true := by
  obtain ⟨kind, rfl⟩ := Vocabulary.exists_kind_of_isRuleName h
  exact Statement.isReserved_kind kind

/-- A deletion or a renaming removes only what lies below nodes that it hits. -/
theorem hits_of_gone (h : e.store.Coherent) (ha : s.Admitted)
    (hverb : s.verb = .delete ∨ s.verb = .rename) {id : NodeId} {n : Node}
    (hn : e.store.get? id = some n) (hgone : (e.run literal s).1.store.get? id = none) :
    ∃ target, s.Hits e.store target ∧ e.store.Below target id := by
  rcases hverb with hv | hv
  · obtain ⟨removed, hclears⟩ := run_cleared h ha hv
    refine (hclears.mem_iff id).mp ?_
    by_contra hstays
    rw [hclears.without.get?_eq_some hstays hn] at hgone
    cases hgone
  · obtain ⟨_, hrelabeled, _⟩ := run_relabeled h ha hv
    obtain ⟨path, hlive⟩ := hrelabeled.get?_eq_some hn
    rw [hlive] at hgone
    cases hgone

/-- A deletion or a renaming renames only nodes that it hits. -/
theorem hits_of_renamed (h : e.store.Coherent) (ha : s.Admitted)
    (hverb : s.verb = .delete ∨ s.verb = .rename) {id : NodeId} {n m : Node}
    (hn : e.store.get? id = some n) (hm : (e.run literal s).1.store.get? id = some m)
    (hne : m.name ≠ n.name) : s.Hits e.store id := by
  rcases hverb with hv | hv
  · obtain ⟨_, hclears⟩ := run_cleared h ha hv
    obtain ⟨_, n', hn', rfl⟩ := hclears.without.of_get? hm
    rw [hn] at hn'
    cases hn'
    exact absurd rfl hne
  · obtain ⟨renamed, hrelabeled, hhits⟩ := run_relabeled h ha hv
    obtain ⟨n', hn', heq⟩ := hrelabeled.of_get? hm
    rw [hn] at hn'
    cases hn'
    refine hhits id (by_contra fun hid => hne ?_)
    rw [heq]
    exact if_neg hid

theorem admitted_of_verb {σ : Type} {e : Engine σ} {text : String}
    (hverb : (e.parse text).verb = .delete ∨ (e.parse text).verb = .rename) :
    (e.parse text).Admitted := by
  refine (parse_cases e text).resolve_left ?_
  rcases hverb with hv | hv <;> simp [sessionResponse?, hv]

/-- In every store that statements lead to, a deletion or a renaming removes only what lies below
its targets, and renames only targets. Those that it hits have no reserved names and are no rules,
unless it selects all the rules of a ruleset with the wildcard, and then it hits each of them. -/
theorem hits_reserved_iff (format : DataFormat) (texts : List String) (text : String) :
    let e : Engine Unit := runTexts .literal { resolverState := (), format } texts
    let s := e.parse text
    s.verb = .delete ∨ s.verb = .rename →
      (∀ id n, e.store.get? id = some n →
        (s.Hits e.store id ∧ (Vocabulary.isReserved n.name = true ∨
            Vocabulary.isRuleName n.name = true) ↔
          ∃ ruleset, s.SelectsRules ruleset ∧ ruleset ≠ Vocabulary.root ∧
            Vocabulary.isRuleName n.name = true ∧
            e.store.Leads [Vocabulary.ruleSubtree, ruleset, n.name] id)) ∧
      (∀ id n, e.store.get? id = some n → (e.run .literal s).1.store.get? id = none →
        ∃ target, s.Hits e.store target ∧ e.store.Below target id) ∧
      ∀ id n m, e.store.get? id = some n → (e.run .literal s).1.store.get? id = some m →
        m.name ≠ n.name → s.Hits e.store id := by
  intro e s hverb
  have h : e.store.WellPlaced := wellPlaced_runTexts format texts
  have ha : s.Admitted := admitted_of_verb hverb
  refine ⟨fun id n hn => ⟨?_, ?_⟩, fun _ _ => hits_of_gone h.coherent ha hverb,
    fun _ _ _ => hits_of_renamed h.coherent ha hverb⟩
  · rintro ⟨hhits, hname⟩
    have hreserved := hname.elim (fun hname => hname) isReserved_of_isRuleName
    obtain ⟨hrule, ruleset, hselects, hroot, hl⟩ :=
      ha.selectsRules_of_hits hverb h.coherent h.shape h.reserved hn hhits hreserved
    exact ⟨ruleset, hselects, hroot, hrule, hl⟩
  · rintro ⟨ruleset, hselects, hroot, hrule, hl⟩
    have hwrite : s.verb ≠ .write := by rcases hverb with hv | hv <;> simp [hv]
    exact ⟨ha.hits_of_selectsRules hwrite h.coherent hselects hroot hl, .inr hrule⟩

theorem hits_reserved_iff_age :
    let e : Engine Unit := runTexts .literal { resolverState := () }
      ["write rule.age: type=integer", "write age=30"]
    let s := e.parse "rename rule.age.Child=kind"
    (∀ id n, e.store.get? id = some n →
      (s.Hits e.store id ∧ (Vocabulary.isReserved n.name = true ∨
          Vocabulary.isRuleName n.name = true) ↔
        ∃ ruleset, s.SelectsRules ruleset ∧ ruleset ≠ Vocabulary.root ∧
          Vocabulary.isRuleName n.name = true ∧
          e.store.Leads [Vocabulary.ruleSubtree, ruleset, n.name] id)) ∧
      ∀ id n m, e.store.get? id = some n → (e.run .literal s).1.store.get? id = some m →
        m.name ≠ n.name → s.Hits e.store id := by
  intro e s
  have hverb : s.verb = .delete ∨ s.verb = .rename := .inr (by decide +kernel)
  obtain ⟨hreserved, _, hrenamed⟩ := hits_reserved_iff .basic
    ["write rule.age: type=integer", "write age=30"] "rename rule.age.Child=kind" hverb
  exact ⟨hreserved, hrenamed⟩

/-- The wildcard reaches the rules of a ruleset, which are deleted although none of them can be by
its name. -/
theorem rules_deleted_by_wildcard :
    let e : Engine Unit :=
      runTexts .literal { resolverState := () } ["write rule.age: type=integer"]
    let s := e.parse "delete rule.age.Child"
    s.verb = .delete ∧ ∃ id n, e.store.get? id = some n ∧ s.Hits e.store id ∧
      n.name = RuleKind.type.name ∧ Vocabulary.isReserved n.name = true ∧
      (e.run .literal s).1.store.get? id = none := by
  intro e s
  have h : e.store.Coherent := (wellPlaced_runTexts .basic _).coherent
  obtain ⟨hset, htype⟩ : e.store.ruleset? "age" = some ⟨2⟩ ∧
      e.store.child? ⟨2⟩ RuleKind.type.name = some ⟨3⟩ := by decide +kernel
  obtain ⟨hverb, hchild, hpath, hfilter⟩ : s.verb = .delete ∧
      s.selectedName = Vocabulary.wildcard ∧
      behindRoot s.parents = [Vocabulary.ruleSubtree, "age"] ∧ s.filter.isEmpty = true := by
    decide +kernel
  obtain ⟨n, hn, _, hname⟩ := h.child?_iff_parent.mp htype
  have hl : e.store.Leads ([Vocabulary.ruleSubtree, "age"] ++ [RuleKind.type.name]) ⟨3⟩ :=
    h.leads_child_iff.mpr ⟨⟨2⟩, h.leads_ruleset_iff.mpr hset, htype⟩
  have hselects : s.SelectsRules "age" := ⟨hchild, hpath, hfilter⟩
  have ha : s.Admitted := admitted_of_verb (.inl hverb)
  have hwrite : s.verb ≠ .write := by rw [hverb]; decide
  have hhits := ha.hits_of_selectsRules hwrite h hselects (by decide) hl
  obtain ⟨removed, hclears⟩ := run_cleared h ha hverb
  refine ⟨hverb, ⟨3⟩, n, hn, hhits, hname, hname ▸ by decide, ?_⟩
  exact hclears.without.get?_eq_none ((hclears.mem_iff _).mpr ⟨⟨3⟩, hhits, .self⟩)

end Engine

end TreeDatabase
