import TreeDatabase.Proofs.Store.Deletion

/-!
# Stores without some of their nodes

A deletion may go on to delete other nodes. What it has left at any time is the store of before
without the nodes that were removed, which with a node contain all that lies below it. Two nodes
above one node are one above the other, and the path of the upper one comes first.
-/

namespace TreeDatabase.Store

variable {s t : Store}

/-! ## Nodes above a node -/

namespace Coherent

/-- Two nodes above a node are one above the other. -/
theorem below_or_below (h : Coherent s) {i j id : NodeId} (hi : s.Below i id)
    (hj : s.Below j id) : s.Below i j ∨ s.Below j i := by
  induction hi with
  | self => exact .inr hj
  | @child k c n habove live member ih =>
    cases hj with
    | self => exact .inl (habove.child live member)
    | child habove' live' member' =>
      rw [h.tree.parent_unique live' live member' member] at habove'
      exact ih habove'

theorem path_lt_of_mem_children (h : Coherent s) {id c : NodeId} {n m : Node}
    (hn : s.get? id = some n) (hc : c ∈ n.children) (hm : s.get? c = some m) :
    n.path < m.path := by
  have hlength := h.tree.length_path_lt hn hc hm
  have hprefix : n.path.toList <+: m.path.toList := by
    rw [h.tree.path_of_mem_children hn hc hm]
    by_cases hblank : n.path = ""
    · simp [hblank]
    · rw [toList_childPath hblank]
      exact List.prefix_append _ _
  apply Std.lt_of_le_of_ne
  · exact fun hlt => hprefix.le (String.lt_iff.mp hlt)
  · intro he
    rw [he] at hlength
    exact Nat.lt_irrefl _ hlength

/-- The path of a node comes before the paths of those below it. -/
theorem path_le_of_below (h : Coherent s) {top id : NodeId} {n m : Node}
    (hn : s.get? top = some n) (hb : s.Below top id) (hm : s.get? id = some m) :
    n.path ≤ m.path := by
  induction hb generalizing m with
  | self =>
    rw [hn] at hm
    cases hm
    exact String.le_refl _
  | child _ live member ih =>
    exact String.le_trans (ih live) (Std.le_of_lt (h.path_lt_of_mem_children live member hm))

/-- A node strictly below a child has a parent with a later path than the child's parent. -/
theorem path_lt_of_below_child (h : Coherent s) {parent above child id : NodeId} {n m : Node}
    (hn : s.get? parent = some n) (hchild : child ∈ n.children) (hm : s.get? above = some m)
    (hid : id ∈ m.children) (hb : s.Below child id) (hne : child ≠ id) : n.path < m.path := by
  obtain ⟨k, hk, _⟩ := h.tree.child hn hchild
  have hlt := h.path_lt_of_mem_children hn hchild hk
  exact Std.lt_of_lt_of_le hlt (h.path_le_of_below hk (h.below_parent hm hid hb hne) hm)

end Coherent

/-! ## Removed nodes -/

/-- One store is another without the nodes that were removed. -/
def Without (s : Store) (removed : List NodeId) (t : Store) : Prop :=
  ∀ id, t.get? id = if id ∈ removed then none else
    (s.get? id).map fun n => { n with children := n.children.filter (· ∉ removed) }

theorem Without.refl (s : Store) : s.Without [] s := by
  intro id
  rw [if_neg List.not_mem_nil]
  cases s.get? id with
  | none => rfl
  | some n =>
    have hchildren : n.children.filter (· ∉ ([] : List NodeId)) = n.children :=
      List.filter_eq_self.mpr (by simp)
    rw [Option.map_some, hchildren]

namespace Without

variable {removed : List NodeId}

theorem get?_eq_none (h : s.Without removed t) {id : NodeId} (hid : id ∈ removed) :
    t.get? id = none := by
  rw [h, if_pos hid]

theorem get?_eq_some (h : s.Without removed t) {id : NodeId} {n : Node} (hid : id ∉ removed)
    (hn : s.get? id = some n) :
    t.get? id = some { n with children := n.children.filter (· ∉ removed) } := by
  rw [h, if_neg hid, hn, Option.map_some]

theorem of_get? (h : s.Without removed t) {id : NodeId} {m : Node} (hm : t.get? id = some m) :
    id ∉ removed ∧ ∃ n, s.get? id = some n ∧
      m = { n with children := n.children.filter (· ∉ removed) } := by
  rw [h] at hm
  split at hm
  · cases hm
  · next hid =>
    obtain ⟨n, hn, rfl⟩ := Option.map_eq_some_iff.mp hm
    exact ⟨hid, n, hn, rfl⟩

theorem prunes (h : s.Without removed t) : s.Prunes t := by
  intro id m hm
  obtain ⟨_, n, hn, rfl⟩ := h.of_get? hm
  exact ⟨n, hn, rfl, rfl, rfl, rfl, List.filter_sublist.subset⟩

/-- A node that stays has a parent that stays. -/
theorem parent_stays (h : s.Without removed t) (hs : Coherent s) (ht : Coherent t)
    {id c : NodeId} {n : Node} (hn : s.get? id = some n) (hc : c ∈ n.children)
    (hstays : c ∉ removed) : id ∉ removed := by
  obtain ⟨m, hm, hparent⟩ := hs.tree.child hn hc
  obtain ⟨p, k, hp, hk, _⟩ :=
    ht.tree.above (h.get?_eq_some hstays hm) (hs.tree.ne_root_of_mem_children hn hc)
  rw [hparent] at hp
  cases hp
  exact (h.of_get? hk).1

theorem mem_of_below (h : s.Without removed t) (hs : Coherent s) (ht : Coherent t)
    {top id : NodeId} (htop : top ∈ removed) (hb : s.Below top id) : id ∈ removed := by
  induction hb with
  | self => exact htop
  | child _ live member ih =>
    by_contra hstays
    exact h.parent_stays hs ht live member hstays ih

theorem below_iff (h : s.Without removed t) (hs : Coherent s) (ht : Coherent t) {top id : NodeId}
    (htop : top ∉ removed) : t.Below top id ↔ s.Below top id ∧ id ∉ removed := by
  constructor
  · intro hb
    induction hb with
    | self => exact ⟨.self, htop⟩
    | child _ live member ih =>
      obtain ⟨_, n, hn, rfl⟩ := h.of_get? live
      rw [List.mem_filter, decide_eq_true_eq] at member
      exact ⟨ih.1.child hn member.1, member.2⟩
  · rintro ⟨hb, hid⟩
    induction hb with
    | self => exact .self
    | child _ live member ih =>
      have hparent := h.parent_stays hs ht live member hid
      exact (ih hparent).child (h.get?_eq_some hparent live) (by simp [member, hid])

theorem mem_children_iff (h : s.Without removed t) (hs : Coherent s) (ht : Coherent t)
    {parent id : NodeId} : id ∈ t.children parent ↔ id ∈ s.children parent ∧ id ∉ removed := by
  rw [Store.mem_children_iff, Store.mem_children_iff]
  constructor
  · rintro ⟨m, hm, hid⟩
    obtain ⟨_, n, hn, rfl⟩ := h.of_get? hm
    rw [List.mem_filter, decide_eq_true_eq] at hid
    exact ⟨⟨n, hn, hid.1⟩, hid.2⟩
  · rintro ⟨⟨n, hn, hmem⟩, hid⟩
    exact ⟨_, h.get?_eq_some (h.parent_stays hs ht hn hmem hid) hn, by simp [hmem, hid]⟩

theorem child?_iff (h : s.Without removed t) (hs : Coherent s) (ht : Coherent t)
    {parent id : NodeId} {name : String} :
    t.child? parent name = some id ↔ s.child? parent name = some id ∧ id ∉ removed := by
  rw [hs.child?_iff_parent, ht.child?_iff_parent]
  constructor
  · rintro ⟨m, hm, hparent, hname⟩
    obtain ⟨hid, n, hn, rfl⟩ := h.of_get? hm
    exact ⟨⟨n, hn, hparent, hname⟩, hid⟩
  · rintro ⟨⟨n, hn, hparent, hname⟩, hid⟩
    exact ⟨_, h.get?_eq_some hid hn, hparent, hname⟩

/-- A node below which nothing was removed has all that lies below it as before. -/
theorem get?_of_below (h : s.Without removed t) {top id : NodeId}
    (hnone : ∀ j, s.Below top j → j ∉ removed) (hb : s.Below top id) : t.get? id = s.get? id := by
  rw [h, if_neg (hnone id hb)]
  cases hn : s.get? id with
  | none => rfl
  | some n =>
    have hchildren : n.children.filter (· ∉ removed) = n.children := by
      rw [List.filter_eq_self]
      intro c hc
      simpa using hnone c (hb.child hn hc)
    rw [Option.map_some, hchildren]

/-- After another deletion the nodes are gone that it removed, too. -/
theorem deleted (h : s.Without removed t) (ht : Coherent t) {parent target : NodeId} {u : Store}
    (hd : t.Deleted parent target u) : s.Without (removed ++ t.subtree target) u := by
  obtain ⟨above, habove, hmem⟩ := hd.child
  obtain ⟨node, hnode, _⟩ := ht.tree.child habove hmem
  have hsubtree : ∀ {id}, id ∈ t.subtree target ↔ t.Below target id := ht.mem_subtree_iff hnode
  intro id
  by_cases hb : t.Below target id
  · rw [hd.gone id hb, if_pos (List.mem_append_right _ (hsubtree.mpr hb))]
  · rw [hd.kept id hb, h]
    by_cases hid : id ∈ removed
    · simp [hid]
    · rw [if_neg hid, if_neg (by simp [hid, hsubtree, hb]), Option.map_map]
      cases hn : s.get? id with
      | none => rfl
      | some n =>
        have hlive := h.get?_eq_some hid hn
        -- of the children that were left, the deletion removes the target only
        have hremoved : ∀ c ∈ n.children, c ∉ removed →
            (t.Below target c ↔ id = parent ∧ c = target) := by
          intro c hc hcid
          have hc' : c ∈ n.children.filter (· ∉ removed) := by simp [hc, hcid]
          constructor
          · intro hbc
            by_cases heq : target = c
            · subst heq
              exact ⟨ht.tree.parent_unique hlive habove hc' hmem, rfl⟩
            · exact absurd (ht.below_parent hlive hc' hbc heq) hb
          · rintro ⟨_, rfl⟩
            exact .self
        have hchildren : n.children.filter (· ∉ removed ++ t.subtree target) =
            (n.children.filter (· ∉ removed)).filter fun c => !(id = parent && c = target) := by
          rw [List.filter_filter]
          refine List.filter_congr fun c hc => ?_
          by_cases hcid : c ∈ removed
          · simp [hcid]
          · simp [hcid, hsubtree, hremoved c hc hcid]
        rw [Option.map_some, Option.map_some, hchildren]
        by_cases hparent : id = parent
        · simp [hparent]
        · simp [hparent]

end Without

end TreeDatabase.Store
