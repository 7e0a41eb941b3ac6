import Mathlib.Data.List.Nodup
import Mathlib.Data.List.Perm.Subperm
import TreeDatabase.Operation.Target
import TreeDatabase.Proofs.Statement.Admission
import TreeDatabase.Proofs.Store.Resolution

/-!
# Candidate parents

The nodes below which a statement looks for its selected name are in the store, and a write or a
deletion that does not go into the rule subtree finds none there.
-/

namespace TreeDatabase

open Store

/-! ## Runs of equal elements -/

theorem mem_eraseRepsBy_loop {α : Type} [BEq α] [LawfulBEq α] (as : List α) (a : α) (acc : List α)
    (x : α) : x ∈ List.eraseRepsBy.loop (· == ·) a as acc ↔ x ∈ acc ∨ x = a ∨ x ∈ as := by
  induction as generalizing a acc with
  | nil => simp [List.eraseRepsBy.loop, or_comm]
  | cons b as ih =>
    rw [List.eraseRepsBy.loop]
    split
    · next hab =>
      rw [ih, beq_iff_eq.mp hab]
      simp
    · rw [ih]
      simp only [List.mem_cons]
      tauto

theorem mem_eraseReps_iff {α : Type} [BEq α] [LawfulBEq α] {as : List α} {x : α} :
    x ∈ as.eraseReps ↔ x ∈ as := by
  cases as with
  | nil => rfl
  | cons a as =>
    rw [List.eraseReps, List.eraseRepsBy, mem_eraseRepsBy_loop]
    simp

theorem eraseRepsBy_loop_eq {α : Type} (r : α → α → Bool) (as : List α) (a : α) (acc : List α) :
    List.eraseRepsBy.loop r a as acc = acc.reverse ++ List.eraseRepsBy.loop r a as [] := by
  induction as generalizing a acc with
  | nil => simp [List.eraseRepsBy.loop]
  | cons b as ih =>
    rw [List.eraseRepsBy.loop, List.eraseRepsBy.loop]
    split
    · exact ih a acc
    · rw [ih b (a :: acc), ih b [a]]
      simp

theorem sublist_eraseRepsBy_loop {α : Type} (r : α → α → Bool) (as : List α) (a : α) :
    (List.eraseRepsBy.loop r a as []).Sublist (a :: as) := by
  induction as generalizing a with
  | nil => exact List.Sublist.refl _
  | cons b as ih =>
    rw [List.eraseRepsBy.loop]
    split
    · exact ((ih a).trans ((List.sublist_cons_self b as).cons_cons a))
    · rw [eraseRepsBy_loop_eq]
      exact (ih b).cons_cons a

theorem sublist_eraseReps {α : Type} [BEq α] (as : List α) : as.eraseReps.Sublist as := by
  cases as with
  | nil => exact List.Sublist.refl _
  | cons a as => exact sublist_eraseRepsBy_loop _ as a

theorem eraseReps_of_nodup {α : Type} [BEq α] [LawfulBEq α] {as : List α} (h : as.Nodup) :
    as.eraseReps = as :=
  (sublist_eraseReps as).eq_of_length_le
    (List.subperm_of_subset h fun _ ha => mem_eraseReps_iff.mpr ha).length_le

/-- A list in order has no repetition when equal neighbours have been merged. -/
theorem nodup_eraseReps {α : Type} [BEq α] [LawfulBEq α] {r : α → α → Prop} {as : List α}
    (hanti : ∀ a ∈ as, ∀ b ∈ as, r a b → r b a → a = b) (has : as.Pairwise r) :
    as.eraseReps.Nodup := by
  cases as with
  | nil => exact List.nodup_nil
  | cons a as =>
    rw [List.eraseReps, List.eraseRepsBy]
    induction as generalizing a with
    | nil => simp [List.eraseRepsBy.loop]
    | cons b as ih =>
      rw [List.eraseRepsBy.loop]
      split
      · next hab =>
        obtain ⟨hfirst, hrest⟩ := List.pairwise_cons.mp has
        rw [beq_iff_eq.mp hab]
        exact ih b (fun c hc d hd => hanti c (List.mem_cons_of_mem _ hc) d
          (List.mem_cons_of_mem _ hd)) hrest
      · next hab =>
        obtain ⟨hfirst, hrest⟩ := List.pairwise_cons.mp has
        rw [eraseRepsBy_loop_eq, List.reverse_singleton, List.singleton_append, List.nodup_cons]
        refine ⟨?_, ih b (fun c hc d hd => hanti c (List.mem_cons_of_mem _ hc) d
          (List.mem_cons_of_mem _ hd)) hrest⟩
        -- the element in front is no later one, which would stand on both sides of its neighbour
        rw [mem_eraseRepsBy_loop]
        rintro (hnil | rfl | hmem)
        · cases hnil
        · exact absurd hab (by simp)
        · have hba := (List.pairwise_cons.mp hrest).1 a hmem
          have heq := hanti a List.mem_cons_self b (by simp) (hfirst b List.mem_cons_self) hba
          exact absurd hab (by simp [heq])

namespace Statement

variable {s : Statement} {store : Store}

/-- Whether a node is asked about: it has to pass the filter of a write, and to have targets for
the other verbs. -/
def suits (s : Statement) (store : Store) (id : NodeId) : Bool :=
  if s.verb = .write then store.passes s.filter id else !(s.targets store id).isEmpty

theorem mem_candidateParents_iff {entry : String × NodeId} :
    entry ∈ s.candidateParents store ↔
      entry ∈ s.parentNodes store ∧ s.suits store entry.2 = true := by
  rw [candidateParents, mem_eraseReps_iff, List.mem_mergeSort, List.mem_filter]
  rfl

/-- Parents that are found in the order of their paths are the candidates in this order. -/
theorem candidateParents_of_pairwise {entries : List (String × NodeId)}
    (hfound : (s.parentNodes store).filter (fun entry => s.suits store entry.2) = entries)
    (horder : entries.Pairwise fun a b => a.1 < b.1) : s.candidateParents store = entries := by
  have hnodup : entries.Nodup := by
    refine List.nodup_iff_pairwise_ne.mpr (horder.imp ?_)
    rintro a b hlt rfl
    exact String.lt_irrefl _ hlt
  have hsorted : (entries.mergeSort fun a b => decide (a.1 ≤ b.1)) = entries :=
    List.mergeSort_of_pairwise (horder.imp fun hlt => decide_eq_true (Std.le_of_lt hlt))
  change (((s.parentNodes store).filter fun entry => s.suits store entry.2).mergeSort _).eraseReps =
    entries
  rw [hfound, hsorted, eraseReps_of_nodup hnodup]

theorem length_candidateParents_le (s : Statement) (store : Store) :
    (s.candidateParents store).length ≤ (s.parentNodes store).length := by
  refine Nat.le_trans (sublist_eraseReps _).length_le ?_
  rw [List.length_mergeSort]
  exact List.length_filter_le _ _

theorem parentNodes_cases {path : String} {id : NodeId}
    (hmem : (path, id) ∈ s.parentNodes store) :
    (s.parents ≠ [] ∧ (path, id) ∈ store.resolvePath s.parents s.includesRules) ∨
    (s.parents = [] ∧ path = "" ∧ id = root) ∨
    (s.parents = [] ∧ s.selectsAll = false ∧
      (path, id) ∈ store.findParentsOf s.selectedName s.includesRules) := by
  rw [parentNodes] at hmem
  split at hmem
  · next hp => exact .inl ⟨hp, hmem⟩
  · next hp =>
    right
    have hnil : s.parents = [] := by simpa using hp
    have hroot : ∀ {entry : String × NodeId}, entry ∈ [("", root)] → entry = (path, id) →
        path = "" ∧ id = root := by
      intro entry he heq
      rw [List.mem_singleton.mp he] at heq
      cases heq
      exact ⟨rfl, rfl⟩
    split at hmem
    · exact .inl ⟨hnil, hroot hmem rfl⟩
    · next hall =>
      dsimp only at hmem
      split at hmem
      · exact .inl ⟨hnil, hroot hmem rfl⟩
      · exact .inr ⟨hnil, by simpa using hall, hmem⟩

theorem mem_findParentsOf (h : store.Coherent) {name path : String} {includeRules : Bool}
    {id : NodeId} (hmem : (path, id) ∈ store.findParentsOf name includeRules) :
    ∃ c n m, store.get? id = some n ∧ n.path = path ∧ c ∈ n.children ∧ store.get? c = some m ∧
      m.name = name ∧ (includeRules = true ∨ ¬ store.UnderRules c) := by
  rw [findParentsOf, List.mem_filterMap] at hmem
  obtain ⟨⟨p, c⟩, hfound, hbind⟩ := hmem
  obtain ⟨m, hm, hname, _, hr⟩ := h.mem_findByName_iff.mp hfound
  obtain ⟨q, n, hq, hn, hc, _⟩ := h.tree.above hm.live hm.ne_root
  rw [hm.live, Option.bind_some, hq, Option.bind_some, located?, hn, Option.map_some] at hbind
  cases hbind
  exact ⟨c, n, m, hn, rfl, hc, hm.live, hname, hr⟩

theorem live_of_mem_parentNodes (h : store.Coherent) {entry : String × NodeId}
    (hmem : entry ∈ s.parentNodes store) :
    ∃ n, store.get? entry.2 = some n ∧ n.path = entry.1 := by
  obtain ⟨path, id⟩ := entry
  rcases parentNodes_cases hmem with ⟨_, hmem⟩ | ⟨_, rfl, rfl⟩ | ⟨_, _, hmem⟩
  · exact (h.mem_resolvePath_iff.mp hmem).2.2
  · obtain ⟨r, hr, _, hp, _⟩ := h.tree.root
    exact ⟨r, hr, hp⟩
  · obtain ⟨_, n, _, hn, hp, _⟩ := mem_findParentsOf h hmem
    exact ⟨n, hn, hp⟩

/-- No parent is a candidate twice. -/
theorem nodup_candidateParents (s : Statement) (h : store.Coherent) :
    ((s.candidateParents store).map Prod.snd).Nodup := by
  have hinj : ∀ a ∈ s.parentNodes store, ∀ b ∈ s.parentNodes store, a.1 = b.1 ↔ a.2 = b.2 := by
    intro a ha b hb
    obtain ⟨n, hn, hpath⟩ := live_of_mem_parentNodes h ha
    obtain ⟨m, hm, hpath'⟩ := live_of_mem_parentNodes h hb
    rw [← hpath, ← hpath']
    constructor
    · exact h.path_inj hn hm
    · intro heq
      rw [heq, hm] at hn
      rw [Option.some.inj hn]
  have hmem : ∀ a ∈ s.candidateParents store, a ∈ s.parentNodes store := fun a ha =>
    (mem_candidateParents_iff.mp ha).1
  have hnodup : (s.candidateParents store).Nodup := by
    rw [candidateParents]
    apply nodup_eraseReps _ (pairwise_mergeSort_key Prod.fst _)
    intro a ha b hb hab hba
    have ha' := (List.mem_filter.mp (List.mem_mergeSort.mp ha)).1
    have hb' := (List.mem_filter.mp (List.mem_mergeSort.mp hb)).1
    have hpath : a.1 = b.1 := String.le_antisymm hab hba
    exact Prod.ext hpath ((hinj a ha' b hb').mp hpath)
  refine hnodup.map_on fun a ha b hb heq => ?_
  exact Prod.ext ((hinj a (hmem a ha) b (hmem b hb)).mpr heq) heq

theorem underRules_child {id c : NodeId} {n : Node}
    (hn : store.get? id = some n) (hc : c ∈ n.children) (hu : store.UnderRules id) :
    store.UnderRules c := by
  obtain ⟨r, top, t, hr, htop, ht, hname, hb⟩ := hu
  exact ⟨r, top, t, hr, htop, ht, hname, hb.child hn hc⟩

/-- A statement that does not name the rules finds no parent among them. -/
theorem not_underRules_of_mem_parentNodes (h : store.Coherent) (hrules : s.includesRules = false)
    {entry : String × NodeId} (hmem : entry ∈ s.parentNodes store) :
    ¬ store.UnderRules entry.2 := by
  obtain ⟨path, id⟩ := entry
  rcases parentNodes_cases hmem with ⟨_, hmem⟩ | ⟨_, rfl, rfl⟩ | ⟨_, _, hmem⟩
  · rw [hrules] at hmem
    exact h.not_underRules_of_finds (h.mem_resolvePath_iff.mp hmem).2.1
  · exact h.not_underRules_root
  · obtain ⟨c, n, m, hn, _, hc, _, _, hr⟩ := mem_findParentsOf h hmem
    intro hu
    rcases hr with hr | hr
    · rw [hrules] at hr
      cases hr
    · exact hr (underRules_child hn hc hu)

/-! ## Admitted statements -/

theorem isNodeName_of_isValidName {name : String} (hvalid : isValidName name = true)
    (hne : name ≠ "") : isNodeName name = true := by
  rw [isNodeName_iff]
  rw [isValidName, List.all_eq_true] at hvalid
  refine ⟨hne, ?_, ?_⟩
  · intro hdot
    have := hvalid '.' hdot
    revert this
    decide
  · intro hcolon
    have := hvalid ':' hcolon
    revert this
    decide

theorem faultIf_eq_nil {condition : Bool} {f : Fault} :
    faultIf condition f = [] ↔ condition = false := by
  cases condition <;> simp [faultIf]

namespace Admitted

theorem isValidName_hierarchy (h : s.Admitted) :
    ∀ name ∈ s.hierarchy, isValidName name = true := by
  have hvalid := h.hasValidNames
  rw [Statement.hasValidNames, Bool.and_eq_true, Bool.and_eq_true, List.all_eq_true] at hvalid
  obtain ⟨⟨hselected, hparents⟩, _⟩ := hvalid
  intro name hmem
  rcases List.mem_append.mp hmem with hmem | hmem
  · exact hparents name hmem
  · rw [List.mem_singleton.mp hmem]
    exact hselected

theorem isValidName_child (h : s.Admitted) :
    ∀ name ∈ s.childNames, isValidName name = true := by
  have hvalid := h.hasValidNames
  rw [Statement.hasValidNames, Bool.and_eq_true, List.all_eq_true] at hvalid
  exact hvalid.2

theorem isNodeName_selectedName (h : s.Admitted) : isNodeName s.selectedName = true := by
  apply isNodeName_of_isValidName (h.isValidName_hierarchy _ (by simp [hierarchy]))
  intro hblank
  by_cases he : s.verb = .enforce
  · have hbegins := (h.beginsAtRules (.inr he)).mpr he
    have hparents : s.parents ≠ [] := by
      intro hnil
      rw [Statement.beginsAtRules, hnil] at hbegins
      cases hbegins
    exact h.pathNames hparents (by rw [hierarchy, hblank]; simp)
  · have hargument := h.argumentFaults
    have hrequires : s.verb.requiresArgument = true := by
      have hverb := h.verb
      revert hverb he
      cases s.verb <;> decide
    rw [Statement.argumentFaults, hblank, hrequires, faultIf_eq_nil] at hargument
    revert hargument
    decide

theorem isNodeName_parent (h : s.Admitted) : ∀ name ∈ s.parents, isNodeName name = true := by
  intro name hname
  have hmem : name ∈ s.hierarchy := List.mem_append_left _ hname
  refine isNodeName_of_isValidName (h.isValidName_hierarchy name hmem) ?_
  rintro rfl
  exact h.pathNames (List.ne_nil_of_mem hname) hmem

theorem isNodeName_child (h : s.Admitted) : ∀ child ∈ s.children, isNodeName child.1 = true := by
  intro child hchild
  exact isNodeName_of_isValidName (h.isValidName_child child.1 (List.mem_map_of_mem hchild))
    (h.childNames child hchild)

theorem count_wildcard (h : s.Admitted) : s.hierarchy.count Vocabulary.wildcard ≤ 1 := by
  have hpath := h.pathFaults
  rw [Statement.pathFaults, List.append_eq_nil_iff, faultIf_eq_nil] at hpath
  have := hpath.1
  simpa using this

theorem count_rules (h : s.Admitted) : s.hierarchy.count Vocabulary.ruleSubtree ≤ 1 := by
  have hpath := h.pathFaults
  rw [Statement.pathFaults, List.append_eq_nil_iff, faultIf_eq_nil, faultIf_eq_nil] at hpath
  have := hpath.2
  simpa using this

/-- The wildcard as the selected name is looked up below one parent at most. -/
theorem length_candidateParents_le_one (h : s.Admitted)
    (hw : s.selectedName = Vocabulary.wildcard) (store : Store) :
    (s.candidateParents store).length ≤ 1 := by
  refine Nat.le_trans (length_candidateParents_le s store) ?_
  have hcount := h.count_wildcard
  rw [hierarchy, hw, List.count_append, List.count_singleton_self] at hcount
  have hparents : Vocabulary.wildcard ∉ s.parents := by
    rw [← List.count_eq_zero]
    omega
  rw [parentNodes]
  split
  · exact length_resolvePath_le store hparents
  · rw [if_pos (by simp [selectsAll, hw])]
    exact Nat.le_refl _

end Admitted

end Statement

end TreeDatabase
