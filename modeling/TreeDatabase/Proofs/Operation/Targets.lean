import TreeDatabase.Proofs.Operation.Removal

/-!
# The targets of a whole path

The selected name of a statement is looked up below the nodes that the names in front of it lead to.
This finds what the whole path leads to, the selected name being one more name of it. Only the word
for the root is not read as a path has it: as the selected name it stands for any name, while it
leads nowhere behind the first name of a path.
-/

namespace TreeDatabase

open Store

namespace Statement

variable {s : Statement} {store : Store}

/-- The targets below all candidate parents, those of the first parent first. -/
def allTargets (s : Statement) (store : Store) : List NodeId :=
  (s.candidateParents store).flatMap fun entry => s.targets store entry.2

theorem mem_allTargets_iff {id : NodeId} : id ∈ s.allTargets store ↔
    ∃ entry ∈ s.candidateParents store, id ∈ s.targets store entry.2 :=
  List.mem_flatMap

/-- A statement hits just its targets that pass its filter. -/
theorem hits_iff {id : NodeId} :
    s.Hits store id ↔ id ∈ s.allTargets store ∧ store.passes s.filter id = true := by
  rw [mem_allTargets_iff]
  constructor
  · rintro ⟨entry, hentry, htarget, hpasses⟩
    exact ⟨⟨entry, hentry, htarget⟩, hpasses⟩
  · rintro ⟨⟨entry, hentry, htarget⟩, hpasses⟩
    exact ⟨entry, hentry, htarget, hpasses⟩

/-- The targets that pass the filter, in order. -/
def hitTargets (s : Statement) (store : Store) : List NodeId :=
  (s.allTargets store).filter (store.passes s.filter)

theorem mem_hitTargets_iff {id : NodeId} : id ∈ s.hitTargets store ↔ s.Hits store id := by
  rw [hits_iff, hitTargets, List.mem_filter]

/-- Below a parent the targets come in the order of the children. -/
theorem targets_sublist (s : Statement) (h : store.Coherent) (parent : NodeId) :
    (s.targets store parent).Sublist (store.children parent) := by
  rw [targets]
  split
  · exact List.filter_sublist
  · cases hchild : store.child? parent s.selectedName with
    | none => exact List.nil_sublist _
    | some c =>
      obtain ⟨n, _, hn, hc, _⟩ := h.child?_iff.mp hchild
      exact List.singleton_sublist.mpr (mem_children_iff.mpr ⟨n, hn, hc⟩)

theorem nodup_targets (s : Statement) (h : store.Coherent) (parent : NodeId) :
    (s.targets store parent).Nodup :=
  (h.nodup_children parent).sublist (s.targets_sublist h parent)

/-- No node is a target twice. -/
theorem nodup_allTargets (s : Statement) (h : store.Coherent) : (s.allTargets store).Nodup := by
  rw [allTargets, List.nodup_flatMap]
  refine ⟨fun entry _ => s.nodup_targets h entry.2, ?_⟩
  have hparents := s.nodup_candidateParents h
  rw [List.nodup_iff_pairwise_ne, List.pairwise_map] at hparents
  refine hparents.imp fun {a b} hne id ha hb => hne ?_
  obtain ⟨n, hn, hc⟩ := mem_children_iff.mp (mem_children_of_mem_targets h ha)
  obtain ⟨m, hm, hc'⟩ := mem_children_iff.mp (mem_children_of_mem_targets h hb)
  exact h.tree.parent_unique hn hm hc hc'

theorem nodup_hitTargets (s : Statement) (h : store.Coherent) : (s.hitTargets store).Nodup :=
  (s.nodup_allTargets h).filter _

/-! ## The last name of a path -/

/-- The name of a path that the selected name is read as. -/
def selectedSegment (s : Statement) : String :=
  if s.selectedName = Vocabulary.root then Vocabulary.wildcard else s.selectedName

theorem selectedSegment_ne_root (s : Statement) : s.selectedSegment ≠ Vocabulary.root := by
  rw [selectedSegment]
  split
  · decide
  · assumption

theorem selectsAll_iff : s.selectsAll = true ↔ s.selectedSegment = Vocabulary.wildcard := by
  rw [selectsAll, selectedSegment]
  split
  · next hroot => simp [hroot]
  · next hroot => simp [hroot]

/-- Outside the rule subtree the child of the selected name is no rule node, unless the statement
names the rules. -/
theorem not_underRules_of_child? (h : store.Coherent) (hrules : s.includesRules = false)
    {parent id : NodeId} (hparent : ¬ store.UnderRules parent)
    (hchild : store.child? parent s.selectedName = some id) : ¬ store.UnderRules id := by
  intro hu
  refine (h.underRules_parent hchild hu).elim (fun hname => ?_) hparent
  have hincludes : s.includesRules = true := by
    rw [includesRules, List.contains_iff_mem, hierarchy, hname]
    exact List.mem_append_right _ List.mem_cons_self
  rw [hrules] at hincludes
  cases hincludes

/-- The targets below a parent are one more step of the path. -/
theorem targets_eq_step (h : store.Coherent) {parent : NodeId}
    (hparent : s.includesRules = true ∨ ¬ store.UnderRules parent) :
    s.targets store parent = store.step s.includesRules [parent] s.selectedSegment := by
  rw [targets, step, List.flatMap_singleton]
  by_cases hall : s.selectsAll = true
  · rw [if_pos hall, if_pos (selectsAll_iff.mp hall)]
    cases s.includesRules <;> simp
  · have hroot : s.selectedName ≠ Vocabulary.root := fun he => hall (by simp [selectsAll, he])
    have hsegment : s.selectedSegment = s.selectedName := if_neg hroot
    rw [if_neg hall, if_neg (mt selectsAll_iff.mpr hall), hsegment]
    cases hrules : s.includesRules with
    | true => rfl
    | false =>
      have hout := hparent.resolve_left (by simp [hrules])
      refine (List.filter_eq_self.mpr fun id hid => ?_).symm
      have hchild := not_underRules_of_child? h hrules hout (Option.mem_toList.mp hid)
      rwa [Bool.not_eq_true', ← Bool.not_eq_true, h.inRuleSubtree_iff]

/-- What the path leads to is not among the rules, unless it names them. -/
theorem admits_of_finds (h : store.Coherent) {segments : List String} {id : NodeId}
    (hf : store.Finds s.includesRules segments id) :
    s.includesRules = true ∨ ¬ store.UnderRules id := by
  cases hrules : s.includesRules with
  | true => exact .inl rfl
  | false => exact .inr (h.not_underRules_of_finds (hrules ▸ hf))

/-- With names in front, the targets are what the path leads to when it goes on with the selected
name. -/
theorem mem_allTargets_iff_finds (h : store.Coherent) (hverb : s.verb ≠ .write)
    (hparents : s.parents ≠ []) {id : NodeId} : id ∈ s.allTargets store ↔
      Vocabulary.root ∉ behindRoot s.parents ∧
        store.Finds s.includesRules (behindRoot s.parents ++ [s.selectedSegment]) id := by
  rw [mem_allTargets_iff]
  constructor
  · rintro ⟨⟨path, parent⟩, hentry, htarget⟩
    have hmem := (mem_candidateParents_iff.mp hentry).1
    rw [parentNodes, if_pos hparents, h.mem_resolvePath_iff] at hmem
    obtain ⟨hroot, hf, _⟩ := hmem
    rw [targets_eq_step h (admits_of_finds h hf), h.mem_step_iff] at htarget
    obtain ⟨_, hparent, n, m, hn, hc, hm, hnamed, hadmitted⟩ := htarget
    rw [List.mem_singleton.mp hparent] at hn
    exact ⟨hroot, .child hf hn hc hm hnamed hadmitted⟩
  · rintro ⟨hroot, hf⟩
    obtain ⟨parent, n, m, habove, hn, hc, hm, hnamed, hadmitted⟩ := hf.parent
    have htarget : id ∈ s.targets store parent := by
      rw [targets_eq_step h (admits_of_finds h habove), h.mem_step_iff]
      exact ⟨parent, List.mem_cons_self, n, m, hn, hc, hm, hnamed, hadmitted⟩
    refine ⟨(n.path, parent), mem_candidateParents_iff.mpr ⟨?_, ?_⟩, htarget⟩
    · rw [parentNodes, if_pos hparents, h.mem_resolvePath_iff]
      exact ⟨hroot, habove, n, hn, rfl⟩
    · rw [suits, if_neg hverb, Bool.not_eq_true', List.isEmpty_eq_false_iff]
      exact List.ne_nil_of_mem htarget

/-- The targets are the nodes of the whole path, the selected name being one more name of it. -/
theorem mem_allTargets_iff_resolvePath (h : store.Coherent) (hverb : s.verb ≠ .write)
    (hparents : s.parents ≠ []) {id : NodeId} : id ∈ s.allTargets store ↔
      id ∈ (store.resolvePath (s.parents ++ [s.selectedSegment]) s.includesRules).map Prod.snd := by
  rw [mem_allTargets_iff_finds h hverb hparents, List.mem_map]
  constructor
  · rintro ⟨hroot, hf⟩
    obtain ⟨n, hn⟩ := h.live_of_finds hf
    refine ⟨(n.path, id), h.mem_resolvePath_iff.mpr ⟨?_, ?_, n, hn, rfl⟩, rfl⟩
    · rw [behindRoot_append hparents, List.mem_append, List.mem_singleton]
      exact not_or.mpr ⟨hroot, s.selectedSegment_ne_root.symm⟩
    · rwa [behindRoot_append hparents]
  · rintro ⟨⟨path, _⟩, hentry, rfl⟩
    obtain ⟨hroot, hf, _⟩ := h.mem_resolvePath_iff.mp hentry
    rw [behindRoot_append hparents] at hroot hf
    exact ⟨fun hin => hroot (List.mem_append_left _ hin), hf⟩

end Statement

end TreeDatabase
