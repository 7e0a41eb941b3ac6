import TreeDatabase.Proofs.Operation.Removal
import TreeDatabase.Proofs.Operation.Rename
import TreeDatabase.Proofs.Statement.Soundness

/-!
# Stores with new names

A renaming that goes on to rename other nodes has left, at any time, the store of before with
another name for some of its nodes. The rule node is no target of it, so that the same nodes stand
below that node all the time.
-/

namespace TreeDatabase

open Store

namespace Statement

variable {s : Statement} {store t : Store} {newName : String} {renamed : List NodeId}

/-! ## Stores with new names -/

/-- One store is another in which some nodes have a new name, with the paths that come of it. -/
structure Relabeled (newName : String) (store : Store) (renamed : List NodeId) (t : Store) :
    Prop where
  coherent : t.Coherent
  nodes : ∀ id, ∃ path, t.get? id = (store.get? id).map fun n =>
    { n with name := if id ∈ renamed then newName else n.name, path }

namespace Relabeled

theorem refl (h : store.Coherent) (newName : String) : Relabeled newName store [] store := by
  refine ⟨h, fun id => ?_⟩
  cases hn : store.get? id with
  | none => exact ⟨"", rfl⟩
  | some n => exact ⟨n.path, by simp⟩

theorem get?_eq_some (h : Relabeled newName store renamed t) {id : NodeId} {n : Node}
    (hn : store.get? id = some n) : ∃ path, t.get? id =
      some { n with name := if id ∈ renamed then newName else n.name, path } := by
  obtain ⟨path, hpath⟩ := h.nodes id
  exact ⟨path, by rw [hpath, hn, Option.map_some]⟩

theorem of_get? (h : Relabeled newName store renamed t) {id : NodeId} {m : Node}
    (hm : t.get? id = some m) : ∃ n, store.get? id = some n ∧
      m = { n with name := if id ∈ renamed then newName else n.name, path := m.path } := by
  obtain ⟨path, hpath⟩ := h.nodes id
  rw [hpath] at hm
  obtain ⟨n, hn, rfl⟩ := Option.map_eq_some_iff.mp hm
  exact ⟨n, hn, rfl⟩

theorem relabels (h : Relabeled newName store renamed t) : Relabels newName store t := by
  intro id m hm
  obtain ⟨n, hn, heq⟩ := h.of_get? hm
  rw [heq]
  refine ⟨n, hn, rfl, rfl, rfl, ?_⟩
  dsimp only
  split
  · exact .inr rfl
  · exact .inl rfl

theorem children_eq (h : Relabeled newName store renamed t) (id : NodeId) :
    t.children id = store.children id := by
  obtain ⟨path, hpath⟩ := h.nodes id
  rw [Store.children, Store.children, hpath]
  cases store.get? id <;> rfl

/-- Below a parent of which no child is renamed, the same names lead to the same nodes. -/
theorem child?_eq (h : Relabeled newName store renamed t) (hs : store.Coherent) {parent : NodeId}
    (hparent : ∀ id ∈ renamed, id ∉ store.children parent) (name : String) :
    t.child? parent name = store.child? parent name := by
  refine Option.ext fun id => ?_
  rw [h.coherent.child?_iff, hs.child?_iff]
  constructor
  · rintro ⟨l, m, hl, hmem, hm, rfl⟩
    obtain ⟨n, hn, heq⟩ := h.of_get? hl
    obtain ⟨k, hk, heq'⟩ := h.of_get? hm
    rw [heq] at hmem
    have hid : id ∉ renamed := fun hid => hparent id hid (mem_children_iff.mpr ⟨n, hn, hmem⟩)
    exact ⟨n, k, hn, hmem, hk, by rw [heq', if_neg hid]⟩
  · rintro ⟨n, k, hn, hmem, hk, rfl⟩
    obtain ⟨path, hl⟩ := h.get?_eq_some hn
    obtain ⟨path', hm⟩ := h.get?_eq_some hk
    have hid : id ∉ renamed := fun hid => hparent id hid (mem_children_iff.mpr ⟨n, hn, hmem⟩)
    exact ⟨_, _, hl, hmem, hm, if_neg hid⟩

theorem below_iff (h : Relabeled newName store renamed t) {top id : NodeId} :
    t.Below top id ↔ store.Below top id := by
  constructor
  · intro hb
    induction hb with
    | self => exact .self
    | child _ live member ih =>
      obtain ⟨n, hn, heq⟩ := h.of_get? live
      rw [heq] at member
      exact ih.child hn member
  · intro hb
    induction hb with
    | self => exact .self
    | child _ live member ih =>
      obtain ⟨path, hpath⟩ := h.get?_eq_some live
      exact ih.child hpath member

/-- The nodes of the rule subtree are the same, unless the rule node is renamed or a node becomes
one. -/
theorem underRules_iff (h : Relabeled newName store renamed t) (hs : store.Coherent)
    (hnew : newName ≠ Vocabulary.ruleSubtree)
    (hrules : ∀ id ∈ renamed, ∀ n, store.get? id = some n → n.parent = some root →
      n.name ≠ Vocabulary.ruleSubtree) {id : NodeId} :
    t.UnderRules id ↔ store.UnderRules id := by
  constructor
  · rintro ⟨r, top, m, hr, htop, hm, hname, hb⟩
    obtain ⟨r', hr', hreq⟩ := h.of_get? hr
    obtain ⟨n, hn, heq⟩ := h.of_get? hm
    rw [hreq] at htop
    rw [heq] at hname
    refine ⟨r', top, n, hr', htop, hn, ?_, h.below_iff.mp hb⟩
    dsimp only at hname
    split at hname
    · exact absurd hname hnew
    · exact hname
  · rintro ⟨r, top, n, hr, htop, hn, hname, hb⟩
    obtain ⟨path, hr'⟩ := h.get?_eq_some hr
    obtain ⟨path', hn'⟩ := h.get?_eq_some hn
    refine ⟨_, top, _, hr', htop, hn', ?_, h.below_iff.mpr hb⟩
    have hparent := hs.tree.parent_of_mem_children hr htop hn
    dsimp only
    rw [if_neg fun hmem => hrules top hmem n hn hparent hname]
    exact hname

/-- After one more renaming one more node has the new name. -/
theorem snoc (h : Relabeled newName store renamed t) {u : Store} {target : NodeId}
    {depth : Nat} (hr : t.Renamed target depth newName u) (hu : u.Coherent) :
    Relabeled newName store (renamed ++ [target]) u := by
  refine ⟨hu, fun id => ?_⟩
  obtain ⟨path, hpath⟩ := h.nodes id
  by_cases hb : t.Below target id
  · rw [hr.moved id hb, hpath, Option.map_map]
    refine ⟨Path.withName depth newName path, congrArg (fun f => (store.get? id).map f) ?_⟩
    funext n
    by_cases hid : id = target <;> simp [renamedNode, hid]
  · have hne : id ≠ target := fun he => hb (he ▸ .self)
    exact ⟨path, by rw [hr.kept id hb, hpath]; simp [hne]⟩

end Relabeled

/-! ## Targets of deletions and renamings -/

/-- What was checked of a deletion or a renaming. -/
theorem Admitted.removable (ha : s.Admitted) (hverb : s.verb = .delete ∨ s.verb = .rename) :
    s.children = [] ∧ Removable s.selectedName := by
  rcases hverb with hdelete | hrename
  · exact (ha.deleteDemands hdelete).2
  · exact ⟨(ha.renameDemands hrename).1, (ha.renameDemands hrename).2.1⟩

/-- A target has the selected name, unless this is the wildcard. -/
theorem mem_targets_cases (h : store.Coherent) (hroot : s.selectedName ≠ Vocabulary.root)
    {parent id : NodeId} (hmem : id ∈ s.targets store parent) :
    ∃ p n, store.get? parent = some p ∧ id ∈ p.children ∧ store.get? id = some n ∧
      (n.name = s.selectedName ∨ s.selectedName = Vocabulary.wildcard ∧
        (s.includesRules = true ∨ ¬ store.UnderRules id)) := by
  rw [targets] at hmem
  split at hmem
  · next hall =>
    obtain ⟨hchild, hrules⟩ := List.mem_filter.mp hmem
    obtain ⟨p, hp, hc⟩ := mem_children_iff.mp hchild
    obtain ⟨n, hn, _⟩ := h.tree.child hp hc
    have hwildcard : s.selectedName = Vocabulary.wildcard := by
      simpa [selectsAll, hroot] using hall
    refine ⟨p, n, hp, hc, hn, .inr ⟨hwildcard, ?_⟩⟩
    rw [← h.inRuleSubtree_iff]
    simpa using hrules
  · obtain ⟨p, n, hp, hc, hn, hname⟩ := h.child?_iff.mp (Option.mem_toList.mp hmem)
    exact ⟨p, n, hp, hc, hn, .inl hname⟩

theorem eq_nil_of_finds_root (h : store.Coherent) {includeRules : Bool} {segments : List String}
    (hf : store.Finds includeRules segments root) : segments = [] := by
  obtain ⟨names, hl, hlength⟩ := leads_of_finds hf
  rw [h.leads_unique hl .root, List.length_nil] at hlength
  exact List.eq_nil_of_length_eq_zero hlength.symm

/-- The rule node is no target of a deletion or a renaming. -/
theorem Admitted.name_ne_of_hits (ha : s.Admitted) (hverb : s.verb = .delete ∨ s.verb = .rename)
    (h : store.Coherent) {id : NodeId} {n : Node} (hhits : s.Hits store id)
    (hn : store.get? id = some n) (hparent : n.parent = some root) :
    n.name ≠ Vocabulary.ruleSubtree := by
  obtain ⟨_, hreserved, _, hroot⟩ := ha.removable hverb
  have hne : s.selectedName ≠ Vocabulary.ruleSubtree := ne_ruleSubtree hreserved
  obtain ⟨⟨path, parent⟩, hentry, htarget, _⟩ := hhits
  obtain ⟨p, m, hp, hc, hm, hcases⟩ := mem_targets_cases h hroot htarget
  rw [hn] at hm
  cases hm
  rw [h.tree.parent_of_mem_children hp hc hn] at hparent
  cases hparent
  intro hname
  rcases hcases with heq | ⟨hwildcard, hrules⟩
  · exact hne (heq ▸ hname)
  · have hunder : store.UnderRules id := ⟨p, id, n, hp, hc, hn, hname, .self⟩
    -- a path that leads to the root itself does not name the rules
    have hincludes := hrules.resolve_right fun hnot => hnot hunder
    have hmem : Vocabulary.ruleSubtree ∈ s.parents := by
      rw [includesRules, List.contains_iff_mem, hierarchy, List.mem_append,
        List.mem_singleton] at hincludes
      exact hincludes.resolve_right hne.symm
    rcases parentNodes_cases (mem_candidateParents_iff.mp hentry).1 with
      ⟨_, hfound⟩ | ⟨hnil, _⟩ | ⟨hnil, _⟩
    · obtain ⟨_, hf, _⟩ := h.mem_resolvePath_iff.mp hfound
      have hbehind := mem_behindRoot hmem (by decide)
      rw [eq_nil_of_finds_root h hf] at hbehind
      cases hbehind
    · rw [hnil] at hmem
      cases hmem
    · rw [hnil] at hmem
      cases hmem

end Statement

end TreeDatabase
