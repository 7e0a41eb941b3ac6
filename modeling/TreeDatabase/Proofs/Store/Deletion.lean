import TreeDatabase.Proofs.Store.Traversal

/-!
# Deleting

A deletion frees the slots of a subtree one after the other and then takes its top off the list of
children. While this goes on the tree is broken, but the index and the free slots agree with the
nodes after every step; the tree is made good by the last one.
-/

namespace TreeDatabase.Store

variable {s : Store}

theorem get?_release (s : Store) (id j : NodeId) :
    (s.release id).get? j = if j = id then none else s.get? j := by
  rw [release]
  split
  · next hid =>
    split
    · next hj => rw [hj, hid]
    · rfl
  · next n hn =>
    obtain ⟨slot⟩ := id
    obtain ⟨k⟩ := j
    have hlt : slot < s.nodes.size := slot_lt_of_get? hn
    dsimp only
    rw [get?_removeFromIndex]
    simp only [get?, Array.getElem?_setIfInBounds, NodeId.mk.injEq, eq_comm (a := k), hlt]
    split <;> rfl

theorem get?_releaseAll (s : Store) (ids : List NodeId) (j : NodeId) :
    (ids.foldl release s).get? j = if j ∈ ids then none else s.get? j := by
  induction ids generalizing s with
  | nil => simp
  | cons id ids ih =>
    rw [List.foldl_cons, ih, get?_release]
    by_cases hj : j = id <;> simp [hj]

theorem entry_release (s : Store) (id : NodeId) :
    (s.release id).entry = Function.update s.entry id none := by
  funext j
  rw [entry, get?_release]
  by_cases hj : j = id
  · subst hj
    simp
  · rw [Function.update_of_ne hj, if_neg hj, entry]

theorem Indexes.release (h : s.Indexes s.entry) {id : NodeId} (hid : id ≠ root) :
    (s.release id).Indexes (s.release id).entry := by
  rw [entry_release]
  cases hn : s.get? id with
  | none =>
    have hs : s.release id = s := by rw [Store.release, hn]
    have hentry : s.entry id = none := by rw [entry, hn, if_neg hid, Option.map_none]
    rw [hs, ← hentry, Function.update_eq_self]
    exact h
  | some n =>
    have hentry : s.entry id = some (n.name, n.path) := entry_eq_some_iff.mpr ⟨hid, n, hn, rfl, rfl⟩
    simp only [Store.release, hn]
    apply Indexes.removeFromIndex _ hentry
    exact h.of_index_eq rfl

theorem TracksFree.release (h : s.TracksFree) (id : NodeId) : (s.release id).TracksFree := by
  rw [Store.release]
  split
  · exact h
  · next n hn =>
    have hlive := get?_eq_some_iff.mp hn
    have hlt := slot_lt_of_get? hn
    let freed : Store :=
      { s with nodes := s.nodes.setIfInBounds id.slot none, free := id.slot :: s.free }
    have hfreed : freed.TracksFree := by
      constructor
      · refine List.nodup_cons.mpr ⟨?_, h.nodup⟩
        rw [h.mem_iff, hlive]
        simp
      · intro slot
        simp only [freed, List.mem_cons, Array.getElem?_setIfInBounds, h.mem_iff]
        by_cases hs : slot = id.slot
        · simp [hs, hlt]
        · simp [hs, Ne.symm hs]
    exact hfreed.of_eq (nodes_removeFromIndex ..) (free_removeFromIndex ..)

/-- Freeing slots keeps the index and the free slots in step with the nodes. -/
theorem releaseAll {ids : List NodeId} (hi : s.Indexes s.entry) (hf : s.TracksFree)
    (hroot : root ∉ ids) :
    (ids.foldl release s).Indexes (ids.foldl release s).entry ∧
      (ids.foldl release s).TracksFree := by
  induction ids generalizing s with
  | nil => exact ⟨hi, hf⟩
  | cons id ids ih =>
    have hne : id ≠ root := fun he => hroot (by simp [he])
    exact ih (hi.release hne) (hf.release id) fun hmem => hroot (List.mem_cons_of_mem _ hmem)

/-! ## The tree without a subtree -/

/-- One store is another without a child of a parent and all that lies below the child. -/
structure Deleted (s : Store) (parent target : NodeId) (t : Store) : Prop where
  child : ∃ n, s.get? parent = some n ∧ target ∈ n.children
  gone : ∀ j, s.Below target j → t.get? j = none
  kept : ∀ j, ¬ s.Below target j → t.get? j = (s.get? j).map fun n =>
    if j = parent then { n with children := n.children.filter (· ≠ target) } else n

namespace Deleted

variable {t : Store} {parent target : NodeId}

/-- What becomes of a node that stays. -/
theorem stays (hd : s.Deleted parent target t) {j : NodeId} {m : Node}
    (hb : ¬ s.Below target j) (hm : s.get? j = some m) : t.get? j =
      some { m with
        children := if j = parent then m.children.filter (· ≠ target) else m.children } := by
  rw [hd.kept j hb, hm, Option.map_some]
  split <;> rfl

/-- A node that is left was there before. -/
theorem live_before (hd : s.Deleted parent target t) {j : NodeId} {n : Node}
    (hn : t.get? j = some n) : ¬ s.Below target j ∧ ∃ m, s.get? j = some m ∧ n =
      { m with children := if j = parent then m.children.filter (· ≠ target) else m.children } := by
  have hb : ¬ s.Below target j := by
    intro hb
    rw [hd.gone j hb] at hn
    cases hn
  have hlive := hn
  rw [hd.kept j hb, Option.map_eq_some_iff] at hlive
  obtain ⟨m, hm, _⟩ := hlive
  rw [hd.stays hb hm] at hn
  exact ⟨hb, m, hm, (Option.some.inj hn).symm⟩

section Tree

variable (h : Coherent s) (hd : s.Deleted parent target t)
include h hd

theorem exists_root : ∃ n, t.get? Store.root = some n ∧ n.name = "" ∧ n.path = "" ∧
    n.parent = none := by
  obtain ⟨above, habove, htarget⟩ := hd.child
  obtain ⟨r, hr, hblank⟩ := h.tree.root
  exact ⟨_, hd.stays (h.root_not_below_child habove htarget) hr, hblank⟩

theorem exists_above {j : NodeId} {n : Node} (hn : t.get? j = some n) (hj : j ≠ Store.root) :
    ∃ p m, n.parent = some p ∧ t.get? p = some m ∧ j ∈ m.children ∧
      n.path = childPath m.path n.name := by
  obtain ⟨hb, m, hm, rfl⟩ := hd.live_before hn
  obtain ⟨p, k, hparent, hk, hmem, hpath⟩ := h.tree.above hm hj
  have hne : j ≠ target := fun he => hb (he ▸ .self)
  refine ⟨p, _, hparent, hd.stays (fun hbp => hb (hbp.child hk hmem)) hk, ?_, hpath⟩
  split <;> simp [hmem, hne]

theorem exists_child {j c : NodeId} {n : Node} (hn : t.get? j = some n) (hc : c ∈ n.children) :
    ∃ m, t.get? c = some m ∧ m.parent = some j := by
  obtain ⟨hb, m, hm, rfl⟩ := hd.live_before hn
  obtain ⟨hmem, hne⟩ : c ∈ m.children ∧ (j = parent → c ≠ target) := by
    dsimp only at hc
    split at hc
    · obtain ⟨hmem, hne⟩ := List.mem_filter.mp hc
      exact ⟨hmem, fun _ => by simpa using hne⟩
    · next hj => exact ⟨hc, fun he => absurd he hj⟩
  obtain ⟨k, hk, hparent⟩ := h.tree.child hm hmem
  -- a child of a node that stays is the target or stays too
  have hbc : ¬ s.Below target c := by
    intro hbc
    by_cases hct : target = c
    · subst hct
      obtain ⟨above, habove, htarget⟩ := hd.child
      exact hne (h.tree.parent_unique hm habove hmem htarget) rfl
    · exact hb (h.below_parent hm hmem hbc hct)
  exact ⟨_, hd.stays hbc hk, hparent⟩

theorem nodup_children {j : NodeId} {n : Node} (hn : t.get? j = some n) : n.children.Nodup := by
  obtain ⟨_, m, hm, rfl⟩ := hd.live_before hn
  dsimp only
  split
  · exact (h.tree.nodup hm).filter _
  · exact h.tree.nodup hm

theorem isNodeName_name {j : NodeId} {n : Node} (hn : t.get? j = some n)
    (hj : j ≠ Store.root) : isNodeName n.name = true := by
  obtain ⟨_, m, hm, rfl⟩ := hd.live_before hn
  exact h.tree.name (n := m) hm hj

end Tree

end Deleted

theorem Coherent.isTree_deleted (h : Coherent s) {t : Store} {parent target : NodeId}
    (hd : s.Deleted parent target t) : IsTree t.get? where
  root := hd.exists_root h
  above := hd.exists_above h
  child := hd.exists_child h
  nodup := hd.nodup_children h
  name := hd.isNodeName_name h

/-- A deletion finds no child, or removes it with all that lies below it. -/
theorem Coherent.deleteChild_cases (h : Coherent s) (parent : NodeId) (name : String) :
    (s.child? parent name = none ∧ s.deleteChild parent name = (s, [])) ∨
    ∃ target t paths, s.child? parent name = some target ∧
      s.deleteChild parent name = (t, paths) ∧ paths ≠ [] ∧ s.Deleted parent target t ∧
      Coherent t := by
  cases hchild : s.child? parent name with
  | none => exact .inl ⟨rfl, by rw [deleteChild, hchild]⟩
  | some target =>
    obtain ⟨above, node, habove, hmem, hnode, _⟩ := h.child?_iff.mp hchild
    have hv := h.visits hnode
    obtain ⟨below, hcons⟩ := h.visit_eq_cons hnode
    let ids := (s.visit (fun _ _ => true) target).map Prod.fst
    let released := ids.foldl release s
    have hroot : root ∉ ids := fun hr =>
      h.root_not_below_child habove hmem ((hv.mem_iff root).mp hr)
    have hparent : parent ∉ ids := fun hp =>
      h.not_below_child habove hmem ((hv.mem_iff parent).mp hp)
    obtain ⟨hindexes, hfree⟩ := releaseAll h.indexes h.tracksFree hroot
    let t := released.modifyNode parent fun node =>
      { node with children := node.children.filter (· ≠ target) }
    have hget : ∀ j, t.get? j = if j ∈ ids then none else (s.get? j).map fun n =>
        if j = parent then { n with children := n.children.filter (· ≠ target) } else n := by
      intro j
      rw [get?_modifyNode]
      split
      · next hj => simp [released, get?_releaseAll, hj, hparent]
      · simp [released, get?_releaseAll]
    have hd : s.Deleted parent target t := by
      refine ⟨⟨above, habove, hmem⟩, ?_, ?_⟩
      · intro j hj
        rw [hget, if_pos ((hv.mem_iff j).mpr hj)]
      · intro j hj
        rw [hget, if_neg fun hm => hj ((hv.mem_iff j).mp hm)]
    refine .inr ⟨target, t, _, rfl, by rw [deleteChild, hchild], ?_, hd, h.isTree_deleted hd,
      ?_, ?_⟩
    · rw [hcons]
      simp
    · have hentry : t.entry = released.entry := by
        funext j
        rw [entry, entry, get?_modifyNode]
        split
        · rfl
        · by_cases hj : j = parent
          · subst hj
            cases released.get? j <;> simp
          · rw [if_neg hj]
      rw [hentry]
      exact hindexes.of_index_eq rfl
    · exact hfree.modifyNode parent _

theorem Coherent.deleteChild (h : Coherent s) (parent : NodeId) (name : String) :
    Coherent (s.deleteChild parent name).1 := by
  rcases h.deleteChild_cases parent name with ⟨_, he⟩ | ⟨_, t, _, _, he, _, _, ht⟩
  · rw [he]
    exact h
  · rw [he]
    exact ht

/-! ## Sequences of deletions -/

variable {t : Store}

/-- Every node is one of before, with the path of before. -/
def Prunes (s t : Store) : Prop :=
  ∀ id m, t.get? id = some m → ∃ n, s.get? id = some n ∧ m.name = n.name ∧ m.path = n.path ∧
    m.value = n.value ∧ m.parent = n.parent ∧ m.children ⊆ n.children

theorem Prunes.refl (s : Store) : s.Prunes s :=
  fun _ _ hm => ⟨_, hm, rfl, rfl, rfl, rfl, List.Subset.refl _⟩

theorem Prunes.trans {u : Store} (h : s.Prunes t) (h' : t.Prunes u) : s.Prunes u := by
  intro id m hm
  obtain ⟨k, hk, hname, hpath, hvalue, hpar, hsub⟩ := h' id m hm
  obtain ⟨n, hn, hname', hpath', hvalue', hpar', hsub'⟩ := h id k hk
  exact ⟨n, hn, hname.trans hname', hpath.trans hpath', hvalue.trans hvalue', hpar.trans hpar',
    List.Subset.trans hsub hsub'⟩

theorem Deleted.prunes {parent target : NodeId} (hd : s.Deleted parent target t) : s.Prunes t := by
  intro id m hm
  obtain ⟨_, n, hn, rfl⟩ := hd.live_before hm
  refine ⟨n, hn, rfl, rfl, rfl, rfl, ?_⟩
  dsimp only
  split
  · exact List.filter_sublist.subset
  · exact List.Subset.refl _

theorem Prunes.leads (h : s.Prunes t) (hs : Coherent s) (ht : Coherent t) {names : List String}
    {id : NodeId} (hl : t.Leads names id) : s.Leads names id := by
  obtain ⟨m, hm, _⟩ := ht.path_of_leads hl
  obtain ⟨n, hn, _, hpath, _⟩ := h id m hm
  exact (hs.leads_congr ht hn hm hpath names).mp hl

end TreeDatabase.Store
