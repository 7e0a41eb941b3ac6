import TreeDatabase.Proofs.Operation.Write

/-!
# The rule subtree

Only the node at the top is named as the rule node, and below it stand rulesets and in these their
rules. Statements keep it so, and a write never goes there.
-/

namespace TreeDatabase

open Store

namespace Store

/-- The rule node stands at the top only, and what lies below it is at most two levels deep. -/
structure RuleShape (s : Store) : Prop where
  top : ∀ {names id}, s.Leads (names ++ [Vocabulary.ruleSubtree]) id → names = []
  depth : ∀ {names id}, s.Leads (Vocabulary.ruleSubtree :: names) id → names.length ≤ 2

theorem ruleShape_empty : empty.RuleShape := by
  have hnone : ∀ {names id}, empty.Leads names id → names = [] := by
    intro names id hl
    cases hl with
    | root => rfl
    | child above live member _ =>
      obtain ⟨_, rfl⟩ := get?_empty live
      cases member
  constructor
  · intro names id hl
    exact absurd (hnone hl) (by simp)
  · intro names id hl
    cases hnone hl

variable {s t : Store}

theorem Prunes.ruleShape (h : s.Prunes t) (hs : Coherent s) (ht : Coherent t)
    (hshape : s.RuleShape) : t.RuleShape where
  top hl := hshape.top (h.leads hs ht hl)
  depth hl := hshape.depth (h.leads hs ht hl)

/-- What writes must keep to for the rule subtree to keep its shape. -/
theorem Writes.ruleShape {ws : List NodeWrite} (hw : s.Writes ws t) (hs : Coherent s)
    (hshape : s.RuleShape)
    (htop : ∀ w ∈ ws, w.name = Vocabulary.ruleSubtree → w.parent = root)
    (hdepth : ∀ w ∈ ws, ∀ names, t.Leads (Vocabulary.ruleSubtree :: names) w.parent →
      names.length ≤ 1) : t.RuleShape := by
  have ht := hw.coherent hs
  -- a node is as before, or it was written as the last name on the way to it
  have hcases : ∀ {names name id}, t.Leads (names ++ [name]) id →
      s.Leads (names ++ [name]) id ∨ ∃ w ∈ ws, w.name = name ∧ t.Leads names w.parent := by
    intro names name id hl
    obtain ⟨p, hp, hchild⟩ := ht.leads_child_iff.mp hl
    obtain ⟨m, hm, hpar, hname⟩ := ht.child?_iff_parent.mp hchild
    rcases hw.value hs hm with ⟨_, n, hn, _, hpath, _⟩ | ⟨w, hmem, rfl, hwname, _⟩
    · exact .inl ((hs.leads_congr ht hn hm hpath _).mp hl)
    · obtain ⟨m', hm', hpar', _⟩ := ht.child?_iff_parent.mp (hw.child?_of_mem hmem)
      rw [hm] at hm'
      cases hm'
      rw [hpar] at hpar'
      cases hpar'
      exact .inr ⟨w, hmem, hwname.trans hname, hp⟩
  constructor
  · intro names id hl
    rcases hcases hl with hl | ⟨w, hmem, hname, hp⟩
    · exact hshape.top hl
    · rw [htop w hmem hname] at hp
      exact ht.leads_unique hp .root
  · intro names id hl
    rcases List.eq_nil_or_concat names with rfl | ⟨above, name, rfl⟩
    · exact Nat.zero_le _
    · rw [List.concat_eq_append, ← List.cons_append] at hl
      rw [List.length_concat]
      rcases hcases hl with hl | ⟨w, hmem, _, hp⟩
      · have := hshape.depth hl
        rwa [List.append_eq, List.length_append] at this
      · exact Nat.succ_le_succ (hdepth w hmem above hp)

/-- The rules of a ruleset have no children. -/
theorem RuleShape.children_eq_nil (hshape : s.RuleShape) (h : Coherent s) {ruleset name : String}
    {id : NodeId} (hl : s.Leads [Vocabulary.ruleSubtree, ruleset, name] id) :
    s.children id = [] := by
  rw [List.eq_nil_iff_forall_not_mem]
  intro c hc
  obtain ⟨n, hn, hmem⟩ := mem_children_iff.mp hc
  obtain ⟨m, hm, _⟩ := h.tree.child hn hmem
  have hdepth := hshape.depth (hl.child hn hmem hm)
  simp at hdepth

/-- Writes outside the rule subtree leave it its shape. -/
theorem Writes.ruleShape_of_outside {ws : List NodeWrite} (hw : s.Writes ws t) (hs : Coherent s)
    (hshape : s.RuleShape)
    (houtside : ∀ w ∈ ws, w.name ≠ Vocabulary.ruleSubtree ∧ ¬ t.UnderRules w.parent) :
    t.RuleShape := by
  have ht := hw.coherent hs
  apply hw.ruleShape hs hshape
  · intro w hmem hname
    exact absurd hname (houtside w hmem).1
  · intro w hmem names hl
    exact absurd (ht.underRules_iff_leads.mpr ⟨names, hl⟩) (houtside w hmem).2

/-- A path with the rule node inside leads nowhere. -/
theorem RuleShape.head_of_finds (hshape : s.RuleShape) (hs : Coherent s) {segments : List String}
    {id : NodeId} (hf : s.Finds true segments id) (hmem : Vocabulary.ruleSubtree ∈ segments) :
    segments.head? = some Vocabulary.ruleSubtree := by
  induction hf with
  | root => cases hmem
  | @child segments segment id c n m above live member node named _ ih =>
    by_cases hin : Vocabulary.ruleSubtree ∈ segments
    · have hhead := ih hin
      cases segments with
      | nil => cases hin
      | cons first rest => exact hhead
    · have hsegment : segment = Vocabulary.ruleSubtree := by
        rcases List.mem_append.mp hmem with h | h
        · exact absurd h hin
        · exact (List.mem_singleton.mp h).symm
      subst hsegment
      have hname : Vocabulary.ruleSubtree = m.name := named.resolve_left (by decide)
      obtain ⟨k, hk⟩ := hs.live_of_finds above
      obtain ⟨names, hl⟩ := hs.exists_leads hk
      have hl' := hl.child live member node
      rw [← hname] at hl'
      have hroot : id = root := by
        rw [hshape.top hl'] at hl
        exact hl.eq_root
      -- only the empty path finds the root
      cases above with
      | root => rfl
      | child _ live' member' =>
        exact absurd hroot (hs.tree.ne_root_of_mem_children live' member')

/-! ## Outside the rule subtree -/

/-- A node of the rule subtree stands below another one, unless it is the rule node. -/
theorem Coherent.underRules_parent (h : Coherent s) {parent id : NodeId} {name : String}
    (hc : s.child? parent name = some id) (hu : s.UnderRules id) :
    name = Vocabulary.ruleSubtree ∨ s.UnderRules parent := by
  obtain ⟨names, hl⟩ := h.underRules_iff_leads.mp hu
  obtain ⟨n, _, hn, _⟩ := h.child?_iff.mp hc
  obtain ⟨above, habove⟩ := h.exists_leads hn
  have heq := h.leads_unique hl (h.leads_child_iff.mpr ⟨parent, habove, hc⟩)
  cases above with
  | nil =>
    rw [List.nil_append, List.cons.injEq] at heq
    exact .inl heq.1.symm
  | cons first rest =>
    rw [List.cons_append, List.cons.injEq] at heq
    exact .inr (h.underRules_iff_leads.mpr ⟨rest, heq.1 ▸ habove⟩)

theorem Coherent.underRules_congr (h : Coherent s) (ht : Coherent t) {id : NodeId} {n m : Node}
    (hn : s.get? id = some n) (hm : t.get? id = some m) (hpath : m.path = n.path) :
    t.UnderRules id ↔ s.UnderRules id := by
  rw [h.underRules_iff_leads, ht.underRules_iff_leads]
  exact exists_congr fun names => h.leads_congr ht hn hm hpath _

end Store

namespace Statement

variable {s : Statement} {store : Store}

theorem beginsAtRules_of_head
    (h : (behindRoot s.parents).head? = some Vocabulary.ruleSubtree) : s.beginsAtRules = true := by
  unfold beginsAtRules
  match hp : s.parents with
  | [] =>
    rw [hp] at h
    cases h
  | [first] =>
    rw [hp, behindRoot] at h
    split at h
    · cases h
    · simpa using h
  | first :: second :: rest =>
    rw [hp, behindRoot] at h
    split at h
    · next hroot =>
      rw [List.head?_cons, Option.some_inj] at h
      simp [hroot, h]
    · rw [List.head?_cons, Option.some_inj] at h
      simp [h]

theorem mem_behindRoot {segments : List String} {name : String} (h : name ∈ segments)
    (hroot : name ≠ Vocabulary.root) : name ∈ behindRoot segments := by
  cases segments with
  | nil => exact h
  | cons first rest =>
    rw [behindRoot]
    split
    · next hfirst => exact (List.mem_cons.mp h).resolve_left fun he => hroot (he.trans hfirst)
    · exact h

namespace Admitted

theorem not_isReserved (ha : s.Admitted) (hverb : s.verb = .write) :
    Vocabulary.isReserved s.selectedName = false ∧
      ∀ child ∈ s.children, Vocabulary.isReserved child.1 = false := by
  have hfaults := ha.verbFaults
  rw [Statement.verbFaults, hverb] at hfaults
  have hnone := List.map_eq_nil_iff.mp (List.append_eq_nil_iff.mp hfaults).2
  rw [List.filter_eq_nil_iff] at hnone
  refine ⟨by simpa using hnone s.selectedName List.mem_cons_self, fun child hchild => ?_⟩
  simpa using hnone child.1 (List.mem_cons_of_mem _ (List.mem_map_of_mem hchild))

theorem ne_ruleSubtree {name : String} (h : Vocabulary.isReserved name = false) :
    name ≠ Vocabulary.ruleSubtree := by
  rintro rfl
  revert h
  decide

/-- A write that finds a parent does not name the rules. -/
theorem not_includesRules (ha : s.Admitted) (hverb : s.verb = .write) (h : store.Coherent)
    (hshape : store.RuleShape) {entry : String × NodeId} (hmem : entry ∈ s.parentNodes store) :
    s.includesRules = false := by
  rw [← Bool.not_eq_true]
  intro hrules
  have hin : Vocabulary.ruleSubtree ∈ s.parents := by
    have hall := hrules
    rw [includesRules, List.contains_iff_mem, hierarchy, List.mem_append] at hall
    refine hall.resolve_right fun hsel => ?_
    exact ne_ruleSubtree (ha.not_isReserved hverb).1 (List.mem_singleton.mp hsel).symm
  have hbegins : s.beginsAtRules = false := by
    have := (ha.beginsAtRules (.inl hverb)).not
    rw [hverb] at this
    simpa using this
  obtain ⟨path, id⟩ := entry
  rw [parentNodes, if_pos (List.ne_nil_of_mem hin), hrules, h.mem_resolvePath_iff] at hmem
  have hhead := hshape.head_of_finds h hmem.2.1 (mem_behindRoot hin (by decide))
  rw [beginsAtRules_of_head hhead] at hbegins
  cases hbegins

theorem not_underRules (ha : s.Admitted) (hverb : s.verb = .write) (h : store.Coherent)
    (hshape : store.RuleShape) {entry : String × NodeId} (hmem : entry ∈ s.parentNodes store) :
    ¬ store.UnderRules entry.2 :=
  not_underRules_of_mem_parentNodes h (ha.not_includesRules hverb h hshape hmem) hmem

theorem name_ne_ruleSubtree (ha : s.Admitted) (hverb : s.verb = .write) (h : store.Coherent)
    (hshape : store.RuleShape) {parent : NodeId}
    (hparent : parent ∈ (s.candidateParents store).map Prod.snd) :
    ∀ name ∈ s.writtenNames store parent, name ≠ Vocabulary.ruleSubtree := by
  obtain ⟨entry, hentry, rfl⟩ := List.mem_map.mp hparent
  have hrules := ha.not_includesRules hverb h hshape (mem_candidateParents_iff.mp hentry).1
  intro name hname
  rw [writtenNames] at hname
  split at hname
  · next hw =>
    obtain ⟨n, hn, rfl⟩ := List.mem_map.mp hname
    obtain ⟨id, hid, hn⟩ := List.mem_filterMap.mp hn
    rw [targets, if_pos (by simp [selectsAll, hw]), hrules, List.mem_filter] at hid
    obtain ⟨hmem, hout⟩ := hid
    rw [Bool.false_or, Bool.not_eq_true', ← Bool.not_eq_true, h.inRuleSubtree_iff] at hout
    intro hrule
    obtain ⟨p, hp, hc⟩ := mem_children_iff.mp hmem
    obtain ⟨names, hl⟩ := h.exists_leads hp
    have hl' := hl.child hp hc hn
    rw [hrule] at hl'
    rw [hshape.top hl'] at hl'
    exact hout (h.underRules_iff_leads.mpr ⟨[], hl'⟩)
  · rw [List.mem_singleton.mp hname]
    exact ne_ruleSubtree (ha.not_isReserved hverb).1

/-- All that a write writes stands outside the rule subtree. -/
theorem writes_outside (ha : s.Admitted) (hverb : s.verb = .write) (h : store.Coherent)
    (hshape : store.RuleShape) {t : Store} {ws : List NodeWrite} (hw : store.Writes ws t)
    (hrequested : s.Requested store ((s.candidateParents store).map Prod.snd) ws) :
    ∀ w ∈ ws, w.name ≠ Vocabulary.ruleSubtree ∧ ¬ t.UnderRules w.parent ∧
      ¬ t.UnderRules w.id := by
  have ht := hw.coherent h
  have hchild : ∀ w ∈ ws, w.name ≠ Vocabulary.ruleSubtree → ¬ t.UnderRules w.parent →
      ¬ t.UnderRules w.id := by
    intro w hmem hname hparent hu
    rcases ht.underRules_parent (hw.child?_of_mem hmem) hu with he | hu
    · exact hname he
    · exact hparent hu
  have htarget : ∀ w, s.IsTarget store ((s.candidateParents store).map Prod.snd) w →
      w.name ≠ Vocabulary.ruleSubtree ∧ ¬ t.UnderRules w.parent := by
    intro w hw'
    refine ⟨ha.name_ne_ruleSubtree hverb h hshape hw'.parent _ hw'.name, ?_⟩
    obtain ⟨entry, hentry, hparent⟩ := List.mem_map.mp hw'.parent
    have hmem := (mem_candidateParents_iff.mp hentry).1
    obtain ⟨n, hn, _⟩ := live_of_mem_parentNodes h hmem
    obtain ⟨m, hm, _, hpath, _⟩ := hw.kept hn
    rw [← hparent, h.underRules_congr ht hn hm hpath]
    exact ha.not_underRules hverb h hshape hmem
  intro w hmem
  rcases hrequested w hmem with ht | ⟨w', hmem', ht, hparent, child, hc, hname, _⟩
  · obtain ⟨hname, hparent⟩ := htarget w ht
    exact ⟨hname, hparent, hchild w hmem hname hparent⟩
  · obtain ⟨hname', hparent'⟩ := htarget w' ht
    have hne : w.name ≠ Vocabulary.ruleSubtree :=
      hname ▸ ne_ruleSubtree ((ha.not_isReserved hverb).2 child hc)
    have hout : ¬ t.UnderRules w.parent := hparent ▸ hchild w' hmem' hname' hparent'
    exact ⟨hne, hout, hchild w hmem hne hout⟩

end Admitted

end Statement

end TreeDatabase
