import Mathlib.Data.List.Basic
import TreeDatabase.Proofs.Operation.Node

/-!
# Persisted rules

The ruleset of a name is a child of the rule node, and the persisted value of a rule is that of its
child of the name of the rule.
-/

namespace TreeDatabase

namespace Store

variable {s : Store}

/-- The value of the child of a name. -/
def valueOf? (s : Store) (parent : NodeId) (name : String) : Option String :=
  ((s.child? parent name).bind s.get?).map (·.value)

/-- The node below the rule node that holds the rules for a name. -/
def ruleset? (s : Store) (name : String) : Option NodeId :=
  (s.child? root Vocabulary.ruleSubtree).bind fun rules => s.child? rules name

theorem childPath_rules {name : String} (hname : isNodeName name = true) :
    childPath Vocabulary.ruleSubtree name = Path.ofNames [Vocabulary.ruleSubtree, name] := by
  have hvalid : ∀ n ∈ [Vocabulary.ruleSubtree, name], isNodeName n = true := by
    intro n hn
    rcases List.mem_cons.mp hn with rfl | hn
    · exact isNodeName_ruleSubtree
    · exact List.mem_singleton.mp hn ▸ hname
  have happend : Path.ofNames ([Vocabulary.ruleSubtree] ++ [name]) = _ :=
    Path.ofNames_append_singleton (fun n hn => hvalid n (by simp [List.mem_singleton.mp hn])) name
  rw [List.singleton_append] at happend
  rw [happend]
  rfl

theorem Coherent.leads_ruleset_iff (h : Coherent s) {name : String} {c : NodeId} :
    s.Leads [Vocabulary.ruleSubtree, name] c ↔ s.ruleset? name = some c := by
  have hsplit : [Vocabulary.ruleSubtree, name] = [Vocabulary.ruleSubtree] ++ [name] := rfl
  rw [hsplit, h.leads_child_iff, ruleset?, Option.bind_eq_some_iff]
  simp only [h.leads_singleton_iff]

theorem Coherent.lookup_ruleset (h : Coherent s) {name : String}
    (hname : isNodeName name = true) :
    s.lookup (childPath Vocabulary.ruleSubtree name) = s.ruleset? name := by
  apply Option.ext
  intro id
  rw [h.lookup_iff_leads, childPath_rules hname, ← h.leads_ruleset_iff]
  constructor
  · rintro ⟨names, hl, hpath⟩
    have hvalid : ∀ n ∈ [Vocabulary.ruleSubtree, name], isNodeName n = true := by
      intro n hn
      rcases List.mem_cons.mp hn with rfl | hn
      · exact isNodeName_ruleSubtree
      · exact List.mem_singleton.mp hn ▸ hname
    rwa [Path.ofNames_inj (h.isNodeName_of_leads hl) hvalid hpath] at hl
  · intro hl
    exact ⟨_, hl, rfl⟩

/-- There is no ruleset for a name that no node can have. -/
theorem Coherent.ruleset?_blank (h : Coherent s) : s.ruleset? "" = none := by
  rw [Option.eq_none_iff_forall_ne_some]
  intro id hid
  obtain ⟨rules, _, hchild⟩ := Option.bind_eq_some_iff.mp hid
  obtain ⟨n, m, hn, hc, hm, hblank⟩ := h.child?_iff.mp hchild
  exact ne_blank_of_isNodeName (h.tree.name_of_mem_children hn hc hm) hblank

end Store

/-! ## Values while nodes are written -/

namespace Store

variable {s t : Store}

theorem valueOf?_of_child? {parent c : NodeId} {name : String} {n : Node}
    (hc : s.child? parent name = some c) (hn : s.get? c = some n) :
    s.valueOf? parent name = some n.value := by
  rw [valueOf?, hc, Option.bind_some, hn, Option.map_some]

theorem valueOf?_eq_none_iff (h : Coherent s) {parent : NodeId} {name : String} :
    s.valueOf? parent name = none ↔ s.child? parent name = none := by
  cases hc : s.child? parent name with
  | none => simp [valueOf?, hc]
  | some c =>
    obtain ⟨n, hn, _⟩ := h.child?_iff_parent.mp hc
    simp [valueOf?_of_child? hc hn]

theorem Wrote.valueOf?_self (h : Coherent s) {parent id : NodeId} {name : String}
    {value : Option String} (hw : s.Wrote parent name value t id) (ht : Coherent t) :
    t.valueOf? parent name = some (value.getD ((s.valueOf? parent name).getD "")) := by
  obtain ⟨k, hk, hname, hparent, hold, hnew⟩ := hw.written h
  rw [valueOf?_of_child? (ht.child?_iff_parent.mpr ⟨k, hk, hparent, hname⟩) hk]
  have hchild := hw.child?_eq h
  cases hn : s.get? id with
  | none =>
    rw [hn] at hchild
    rw [(hnew hn).1, Store.valueOf?, hchild]
    rfl
  | some n =>
    rw [hn] at hchild
    rw [(hold n hn).2, valueOf?_of_child? hchild hn]
    rfl

/-- Any other child is another node, which is as it was. -/
theorem Wrote.valueOf?_of_ne (h : Coherent s) {parent id : NodeId} {name : String}
    {value : Option String} (hw : s.Wrote parent name value t id) (ht : Coherent t) {p : NodeId}
    {m : String} (hne : ¬ (parent = p ∧ name = m)) : t.valueOf? p m = s.valueOf? p m := by
  have hother : ∀ c, t.child? p m = some c → c ≠ id := by
    rintro c hc rfl
    obtain ⟨k, hk, hname, hparent, _⟩ := hw.written h
    obtain ⟨k', hk', hparent', hname'⟩ := ht.child?_iff_parent.mp hc
    rw [hk] at hk'
    cases hk'
    rw [hparent] at hparent'
    cases hparent'
    exact hne ⟨rfl, hname.symm.trans hname'⟩
  cases hs : s.child? p m with
  | none =>
    have hc : t.child? p m = none := by
      refine Option.eq_none_iff_forall_ne_some.mpr fun c hc => ?_
      obtain ⟨k, hk, hparent, hname⟩ := ht.child?_iff_parent.mp hc
      obtain ⟨n, hn, hnname, _, hnparent, _⟩ := hw.back hk (hother c hc)
      rw [h.child?_iff_parent.mpr
        ⟨n, hn, hnparent.symm.trans hparent, hnname.symm.trans hname⟩] at hs
      cases hs
    rw [Store.valueOf?, Store.valueOf?, hc, hs]
    rfl
  | some c =>
    obtain ⟨n, hn, _⟩ := h.child?_iff_parent.mp hs
    have hc := (Writes.single h (w := ⟨parent, name, value, id⟩) hw ht).child?_kept h hs
    obtain ⟨n', hn', _, _, _, _, hvalue, _⟩ := hw.kept hn
    rw [valueOf?_of_child? hc hn', valueOf?_of_child? hs hn, hvalue (hother c hc)]

theorem Wrote.valueOf? (h : Coherent s) {parent id : NodeId} {name : String} {value : Option String}
    (hw : s.Wrote parent name value t id) (ht : Coherent t) (p : NodeId) (m : String) :
    t.valueOf? p m = if parent = p ∧ name = m then some (value.getD ((s.valueOf? p m).getD ""))
      else s.valueOf? p m := by
  split
  · next heq =>
    obtain ⟨rfl, rfl⟩ := heq
    exact hw.valueOf?_self h ht
  · next hne => exact hw.valueOf?_of_ne h ht hne

/-- What a request makes of the value of a child. -/
def valueAfter (parent : NodeId) (name : String) (value : Option String)
    (request : NodeId × String × Option String) : Option String :=
  if request.1 = parent ∧ request.2.1 = name then some (request.2.2.getD (value.getD ""))
  else value

namespace Writes

variable {ws : List NodeWrite}

theorem valueOf? (hw : s.Writes ws t) (p : NodeId) (m : String) :
    t.valueOf? p m = (ws.map (·.request)).foldl (valueAfter p m) (s.valueOf? p m) := by
  induction hw with
  | refl => rfl
  | snoc before coherent wrote result ih =>
    rw [List.map_append, List.foldl_append, ← ih, wrote.valueOf? coherent result]
    rfl

theorem valueOf?_of_not_mem (hw : s.Writes ws t) {p : NodeId} {m : String}
    (hnot : ∀ w ∈ ws, w.parent = p → w.name ≠ m) : t.valueOf? p m = s.valueOf? p m := by
  rw [hw.valueOf?]
  clear hw
  generalize s.valueOf? p m = v
  induction ws with
  | nil => rfl
  | cons w ws ih =>
    rw [List.map_cons, List.foldl_cons, valueAfter,
      if_neg fun heq => hnot w List.mem_cons_self heq.1 heq.2]
    exact ih fun w hw => hnot w (List.mem_cons_of_mem _ hw)

theorem ruleset?_kept (hw : s.Writes ws t) (h : Coherent s) {name : String} {id : NodeId}
    (hid : s.ruleset? name = some id) : t.ruleset? name = some id := by
  obtain ⟨rules, hrules, hc⟩ := Option.bind_eq_some_iff.mp hid
  exact Option.bind_eq_some_iff.mpr ⟨rules, hw.child?_kept h hrules, hw.child?_kept h hc⟩

/-- Which node a ruleset is was known from the start, unless it is a new one. -/
theorem ruleset?_eq (hw : s.Writes ws t) (h : Coherent s) {name : String} {id : NodeId}
    (hid : t.ruleset? name = some id) :
    s.ruleset? name = if (s.get? id).isSome then some id else none := by
  obtain ⟨rules, hrules, hc⟩ := Option.bind_eq_some_iff.mp hid
  cases hn : s.get? id with
  | some n =>
    have hsc := hw.child?_back h hc hn
    obtain ⟨k, _, hk, _⟩ := h.child?_iff.mp hsc
    exact Option.bind_eq_some_iff.mpr ⟨rules, hw.child?_back h hrules hk, hsc⟩
  | none =>
    cases hs : s.ruleset? name with
    | none => rfl
    | some j =>
      rw [hw.ruleset?_kept h hs] at hid
      cases hid
      obtain ⟨_, _, hc'⟩ := Option.bind_eq_some_iff.mp hs
      obtain ⟨_, hn', _⟩ := h.child?_iff_parent.mp hc'
      rw [hn] at hn'
      cases hn'

end Writes

end Store

/-! ## The table of rules -/

theorem lookup_filterMap_eq {α β : Type} [BEq α] [LawfulBEq α] (f : α → Option β) (l : List α)
    (a : α) : (l.filterMap fun k => (f k).map fun v => (k, v)).lookup a =
      if a ∈ l then f a else none := by
  induction l with
  | nil => rfl
  | cons k l ih =>
    by_cases hk : a = k
    · subst hk
      cases hf : f a with
      | none =>
        simp only [List.filterMap_cons, hf, Option.map_none, ih, List.mem_cons, true_or, ↓reduceIte]
        split <;> rfl
      | some v => simp [hf]
    · cases hf : f k with
      | none => simp [hf, ih, hk]
      | some v =>
        have hne : (a == k) = false := beq_eq_false_iff_ne.mpr hk
        simp [hf, List.lookup_cons, hne, ih, hk]

namespace Ruleset

open Store

variable {s : Store}

theorem persisted?_eq (h : s.Coherent) {name : String} (hname : isNodeName name = true)
    (kind : RuleKind) :
    persisted? s name kind = (s.ruleset? name).bind fun id => s.valueOf? id kind.name := by
  rw [persisted?, rulesFor, h.lookup_ruleset hname]
  cases s.ruleset? name with
  | none => rfl
  | some id =>
    simp only [Option.bind_some]
    have htable := lookup_filterMap_eq (fun kind : RuleKind =>
      (((s.children id).filterMap s.get?).find? (·.name == kind.name)).map (·.value))
      RuleKind.all kind
    simp only [Option.map_map] at htable
    rw [if_pos (RuleKind.mem_all kind), List.find?_filterMap, ← h.child?_eq_find?] at htable
    rw [valueOf?, ← htable]
    rfl

/-- The persisted rules of a name are the values below its ruleset, also in a store that does not
have this node yet. -/
theorem persisted?_of_writes (h : s.Coherent) {t : Store} {ws : List NodeWrite}
    (hw : s.Writes ws t) {name : String} (hname : isNodeName name = true) {id : NodeId}
    (hid : t.ruleset? name = some id) (kind : RuleKind) :
    persisted? s name kind = s.valueOf? id kind.name := by
  rw [persisted?_eq h hname, hw.ruleset?_eq h hid]
  cases hn : s.get? id with
  | some n => rfl
  | none => simp [Store.valueOf?, child?, hn]

/-- Writes that write nothing in the ruleset of a name leave its rules as they are. -/
theorem persisted?_unchanged (h : s.Coherent) {t : Store} {ws : List NodeWrite}
    (hw : s.Writes ws t) {name : String} (hname : isNodeName name = true)
    (hnot : ∀ id, t.ruleset? name = some id → ∀ w ∈ ws, w.parent ≠ id) (kind : RuleKind) :
    persisted? t name kind = persisted? s name kind := by
  rw [persisted?_eq (hw.coherent h) hname]
  cases hid : t.ruleset? name with
  | some id =>
    rw [Option.bind_some, persisted?_of_writes h hw hname hid]
    exact hw.valueOf?_of_not_mem fun w hmem heq => absurd heq (hnot id hid w hmem)
  | none =>
    cases hs : s.ruleset? name with
    | none =>
      rw [persisted?_eq h hname, hs]
      rfl
    | some id =>
      rw [hw.ruleset?_kept h hs] at hid
      cases hid

/-- Writes outside the rule subtree leave the rules as they are. -/
theorem persisted?_of_outside (h : s.Coherent) {t : Store} {ws : List NodeWrite}
    (hw : s.Writes ws t) (houtside : ∀ w ∈ ws, ¬ t.UnderRules w.parent) {name : String}
    (hname : isNodeName name = true) (kind : RuleKind) :
    persisted? t name kind = persisted? s name kind := by
  have ht := hw.coherent h
  refine persisted?_unchanged h hw hname (fun id hid w hmem hparent => ?_) kind
  have hu := ht.underRules_iff_leads.mpr ⟨_, ht.leads_ruleset_iff.mpr hid⟩
  exact houtside w hmem (hparent ▸ hu)

/-- The table of rules holds what is persisted. -/
theorem rulesFor_eq (s : Store) (name : String) :
    s.rulesFor name =
      RuleKind.all.filterMap fun kind => (persisted? s name kind).map fun v => (kind, v) := by
  have htable : ∀ f : RuleKind → Option String,
      (RuleKind.all.filterMap fun kind => (f kind).map fun v => (kind, v)) =
        RuleKind.all.filterMap fun kind => (((RuleKind.all.filterMap fun kind =>
          (f kind).map fun v => (kind, v)).lookup kind).map fun v => (kind, v)) := by
    intro f
    refine List.filterMap_congr fun kind hkind => ?_
    rw [lookup_filterMap_eq, if_pos hkind]
  simp only [persisted?]
  rw [rulesFor]
  cases s.lookup (childPath Vocabulary.ruleSubtree name) with
  | none => rfl
  | some id =>
    have hrules := htable fun kind =>
      (((s.children id).filterMap s.get?).find? (·.name == kind.name)).map (·.value)
    simpa only [Option.map_map, Function.comp_def] using hrules

end Ruleset

end TreeDatabase
