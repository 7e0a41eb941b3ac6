import TreeDatabase.Proofs.Store.Coherence

/-!
# Inserting and overwriting

An insertion gives the parent one more child, which stands last, in a slot that was free or new. An
overwriting changes one value. Both leave a coherent store coherent.
-/

namespace TreeDatabase.Store

/-- A node is placed in a slot that no node had, and nothing else changes. -/
theorem place_spec {s : Store} (h : s.TracksFree) (node : Node) :
    ∃ t id, s.place node = (t, id) ∧ s.get? id = none ∧ t.index = s.index ∧ t.TracksFree ∧
      ∀ j, t.get? j = if j = id then some node else s.get? j := by
  rw [place]
  split
  · next slot free hfree =>
    have hm : s.nodes[slot]? = some none := (h.mem_iff slot).mp (by simp [hfree])
    have hnodup := h.nodup
    rw [hfree, List.nodup_cons] at hnodup
    refine ⟨_, _, rfl, by simp [get?, hm], rfl, ⟨hnodup.2, ?_⟩, ?_⟩
    · intro k
      simp only [Array.getElem?_setIfInBounds]
      split
      · next he => simp [← he, hnodup.1]
      · next hne => rw [← h.mem_iff, hfree, List.mem_cons, or_iff_right (Ne.symm hne)]
    · rintro ⟨k⟩
      have hlt : slot < s.nodes.size := (Array.getElem?_eq_some_iff.mp hm).1
      simp only [get?, Array.getElem?_setIfInBounds, NodeId.mk.injEq, eq_comm (a := k), hlt]
      split <;> rfl
  · next hfree =>
    refine ⟨_, _, rfl, by simp [get?], rfl, ⟨h.nodup, ?_⟩, ?_⟩
    · intro k
      have hk := h.mem_iff k
      simp only [hfree, Array.getElem?_push]
      split
      · simp
      · rw [← hk, hfree]
    · rintro ⟨k⟩
      simp only [get?, Array.getElem?_push, NodeId.mk.injEq]
      split <;> rfl

/-! ## The tree with one more node -/

/-- One store is another with a new node as the last child of a parent. -/
structure Inserted (s : Store) (parent : NodeId) (name value : String) (t : Store) (id : NodeId) :
    Prop where
  fresh : s.get? id = none
  nodes : ∃ above, s.get? parent = some above ∧ ∀ j, t.get? j =
    if j = id then some ⟨name, value, childPath above.path name, some parent, []⟩
    else if j = parent then some { above with children := above.children ++ [id] }
    else s.get? j

namespace Inserted

variable {s t : Store} {parent id : NodeId} {name value : String}

theorem ne_of_live (hi : s.Inserted parent name value t id) {j : NodeId} {n : Node}
    (hn : s.get? j = some n) : j ≠ id := by
  rintro rfl
  rw [hi.fresh] at hn
  cases hn

/-- What becomes of a node that was there before. -/
theorem kept (hi : s.Inserted parent name value t id) {j : NodeId} {n : Node}
    (hn : s.get? j = some n) : t.get? j =
      some { n with children := if j = parent then n.children ++ [id] else n.children } := by
  obtain ⟨above, hp, ht⟩ := hi.nodes
  rw [ht, if_neg (hi.ne_of_live hn)]
  split
  · next hj =>
    rw [hj, hp] at hn
    cases hn
    rfl
  · exact hn

/-- A node is the new one, or it was there before. -/
theorem live_cases (hi : s.Inserted parent name value t id) {j : NodeId} {n : Node}
    (hn : t.get? j = some n) :
    (j = id ∧ ∃ above, s.get? parent = some above ∧
      n = ⟨name, value, childPath above.path name, some parent, []⟩) ∨
    (j ≠ id ∧ ∃ m, s.get? j = some m ∧
      n = { m with children := if j = parent then m.children ++ [id] else m.children }) := by
  obtain ⟨above, hp, ht⟩ := hi.nodes
  have hn' := hn
  rw [ht] at hn'
  by_cases hj : j = id
  · rw [if_pos hj] at hn'
    cases hn'
    exact .inl ⟨hj, above, hp, rfl⟩
  · have hlive : ∃ m, s.get? j = some m := by
      rw [if_neg hj] at hn'
      split at hn'
      · next hjp => exact ⟨above, hjp ▸ hp⟩
      · exact ⟨n, hn'⟩
    obtain ⟨m, hm⟩ := hlive
    rw [hi.kept hm] at hn
    exact .inr ⟨hj, m, hm, (Option.some.inj hn).symm⟩

theorem mem_children_cases {j c : NodeId} {children : List NodeId}
    (hc : c ∈ if j = parent then children ++ [id] else children) :
    c ∈ children ∨ (j = parent ∧ c = id) := by
  split at hc
  · next hj => exact (List.mem_append.mp hc).imp_right fun hid => ⟨hj, List.mem_singleton.mp hid⟩
  · exact .inl hc

section Tree

variable (h : IsTree s.get?) (hi : s.Inserted parent name value t id)
include h hi

theorem exists_root : ∃ n, t.get? Store.root = some n ∧ n.name = "" ∧ n.path = "" ∧
    n.parent = none := by
  obtain ⟨r, hr, hblank⟩ := h.root
  exact ⟨_, hi.kept hr, hblank⟩

theorem exists_above {j : NodeId} {n : Node} (hn : t.get? j = some n) (hj : j ≠ Store.root) :
    ∃ p m, n.parent = some p ∧ t.get? p = some m ∧ j ∈ m.children ∧
      n.path = childPath m.path n.name := by
  rcases hi.live_cases hn with ⟨rfl, above, hp, rfl⟩ | ⟨_, m, hm, rfl⟩
  · exact ⟨parent, _, rfl, hi.kept hp, by simp, rfl⟩
  · obtain ⟨p, k, hpar, hk, hmem, hpath⟩ := h.above hm hj
    exact ⟨p, _, hpar, hi.kept hk, by split <;> simp [hmem], hpath⟩

theorem exists_child {j c : NodeId} {n : Node} (hn : t.get? j = some n) (hc : c ∈ n.children) :
    ∃ m, t.get? c = some m ∧ m.parent = some j := by
  rcases hi.live_cases hn with ⟨_, _, _, rfl⟩ | ⟨_, m, hm, rfl⟩
  · cases hc
  · rcases mem_children_cases hc with hc | ⟨rfl, rfl⟩
    · obtain ⟨k, hk, hparent⟩ := h.child hm hc
      exact ⟨_, hi.kept hk, hparent⟩
    · obtain ⟨above, _, ht⟩ := hi.nodes
      exact ⟨_, by rw [ht, if_pos rfl], rfl⟩

theorem nodup_children {j : NodeId} {n : Node} (hn : t.get? j = some n) : n.children.Nodup := by
  rcases hi.live_cases hn with ⟨_, _, _, rfl⟩ | ⟨_, m, hm, rfl⟩
  · exact List.nodup_nil
  · have hnew : id ∉ m.children := by
      -- children have nodes
      intro hmem
      obtain ⟨k, hk, _⟩ := h.child hm hmem
      exact hi.ne_of_live hk rfl
    change (if j = parent then m.children ++ [id] else m.children).Nodup
    split
    · exact List.nodup_append.mpr ⟨h.nodup hm, by simp, fun c hc d hd hcd =>
        hnew (List.mem_singleton.mp hd ▸ hcd ▸ hc)⟩
    · exact h.nodup hm

theorem isNodeName_name (hname : isNodeName name = true) {j : NodeId} {n : Node}
    (hn : t.get? j = some n) (hj : j ≠ Store.root) : isNodeName n.name = true := by
  rcases hi.live_cases hn with ⟨_, _, _, rfl⟩ | ⟨_, m, hm, rfl⟩
  · exact hname
  · exact h.name (n := m) hm hj

end Tree

end Inserted

theorem IsTree.inserted {s t : Store} (h : IsTree s.get?) {parent id : NodeId}
    {name value : String} (hname : isNodeName name = true)
    (hi : s.Inserted parent name value t id) : IsTree t.get? where
  root := hi.exists_root h
  above := hi.exists_above h
  child := hi.exists_child h
  nodup := hi.nodup_children h
  name := hi.isNodeName_name h hname

theorem Inserted.entry_eq {s t : Store} {parent id : NodeId} {name value : String} {above : Node}
    (hi : s.Inserted parent name value t id) (hroot : id ≠ root)
    (hp : s.get? parent = some above) :
    t.entry = Function.update s.entry id (some (name, childPath above.path name)) := by
  obtain ⟨_, above', hp', ht⟩ := hi
  rw [hp] at hp'
  cases hp'
  funext j
  by_cases hj : j = id
  · subst hj
    simp [entry, ht, hroot]
  · rw [Function.update_of_ne hj, entry, entry, ht, if_neg hj]
    by_cases hjp : j = parent
    · subst hjp
      simp [hp]
    · rw [if_neg hjp]

/-- What an insertion of a missing child does. -/
theorem Coherent.insertOrGetChild_new {s : Store} (h : Coherent s) {parent : NodeId}
    {above : Node} {name : String} (value : String) (hp : s.get? parent = some above)
    (hname : isNodeName name = true) (hmissing : s.child? parent name = none) :
    ∃ t id, s.insertOrGetChild parent name value = .ok (t, id, true) ∧
      s.Inserted parent name value t id ∧ Coherent t := by
  obtain ⟨u, id, hplace, hfresh, hindex, hfree, hu⟩ :=
    place_spec h.tracksFree ⟨name, value, childPath above.path name, some parent, []⟩
  have hpid : parent ≠ id := by
    rintro rfl
    rw [hp] at hfresh
    cases hfresh
  have hroot : id ≠ root := by
    obtain ⟨r, hr, _⟩ := h.tree.root
    rintro rfl
    rw [hr] at hfresh
    cases hfresh
  let linked := u.modifyNode parent fun node => { node with children := node.children ++ [id] }
  have hi : s.Inserted parent name value
      (linked.addToIndex name (childPath above.path name) id) id := by
    refine ⟨hfresh, above, hp, ?_⟩
    intro j
    rw [get?_addToIndex, get?_modifyNode, hu, hu, if_neg hpid, hp]
    by_cases hj : j = id
    · rw [if_pos hj, if_pos hj, if_neg (hj ▸ Ne.symm hpid)]
    · rw [if_neg hj, if_neg hj]
      rfl
  refine ⟨_, id, ?_, hi, h.tree.inserted hname hi, ?_, ?_⟩
  · simp only [insertOrGetChild, hname, Bool.not_true, Bool.false_eq_true, ↓reduceIte, hmissing,
      hp, hplace]
    rfl
  · rw [hi.entry_eq hroot hp]
    have hidx : linked.Indexes s.entry := h.indexes.of_index_eq hindex
    apply hidx.addToIndex
    · rw [entry, if_neg hroot, hfresh, Option.map_none]
    · -- a node of that name and path would be the child that is missing
      intro j hj
      rw [child?, hp, Option.bind_some, ← Option.not_isSome_iff_eq_none] at hmissing
      exact hmissing (by rw [(h.indexes.indexed _ _ _).mpr hj]; rfl)
  · exact (hfree.modifyNode parent _).of_eq rfl rfl

/-! ## Insertions in general -/

/-- An insertion gives the child that is there, creates it when it is missing, or is refused. -/
theorem Coherent.insertOrGetChild_cases {s : Store} (h : Coherent s) (parent : NodeId)
    (name value : String) :
    (∃ id, s.child? parent name = some id ∧ isNodeName name = true ∧
      s.insertOrGetChild parent name value = .ok (s, id, false)) ∨
    (∃ t id, s.insertOrGetChild parent name value = .ok (t, id, true) ∧
      s.child? parent name = none ∧ isNodeName name = true ∧
      s.Inserted parent name value t id ∧ Coherent t) ∨
    (∃ fault, s.insertOrGetChild parent name value = .error fault ∧
      (isNodeName name = false ∨ s.get? parent = none)) := by
  cases hname : isNodeName name with
  | false => exact .inr (.inr ⟨.invalidNodeName name, by simp [insertOrGetChild, hname], .inl rfl⟩)
  | true =>
    cases hchild : s.child? parent name with
    | some id => exact .inl ⟨id, rfl, rfl, by simp [insertOrGetChild, hname, hchild]⟩
    | none =>
      cases hp : s.get? parent with
      | none =>
        exact .inr (.inr ⟨.nodeNotFound parent, by simp [insertOrGetChild, hname, hchild, hp],
          .inr rfl⟩)
      | some above =>
        obtain ⟨t, id, hok, hi, ht⟩ := h.insertOrGetChild_new value hp hname hchild
        exact .inr (.inl ⟨t, id, hok, rfl, rfl, hi, ht⟩)

theorem Coherent.insertOrGetChild {s t : Store} (h : Coherent s) {parent id : NodeId}
    {name value : String} {created : Bool}
    (hok : s.insertOrGetChild parent name value = .ok (t, id, created)) : Coherent t := by
  rcases h.insertOrGetChild_cases parent name value with
    ⟨_, _, _, he⟩ | ⟨u, _, he, _, _, _, hu⟩ | ⟨_, he, _⟩
  · rw [he] at hok
    cases hok
    exact h
  · rw [he] at hok
    cases hok
    exact hu
  · rw [he] at hok
    cases hok

theorem Coherent.insertOrGetChild_isOk {s : Store} (h : Coherent s) {parent : NodeId}
    {above : Node} {name : String} (value : String) (hp : s.get? parent = some above)
    (hname : isNodeName name = true) :
    ∃ t id created, s.insertOrGetChild parent name value = .ok (t, id, created) := by
  rcases h.insertOrGetChild_cases parent name value with
    ⟨id, _, _, he⟩ | ⟨t, id, he, _⟩ | ⟨_, _, hno | hno⟩
  · exact ⟨s, id, false, he⟩
  · exact ⟨t, id, true, he⟩
  · rw [hname] at hno
    cases hno
  · rw [hp] at hno
    cases hno

/-! ## Overwriting -/

theorem setValue_eq_ok_iff {s t : Store} {id : NodeId} {value : String} :
    s.setValue id value = .ok t ↔
      (∃ n, s.get? id = some n) ∧ t = s.modifyNode id fun node => { node with value := value } := by
  rw [setValue]
  cases s.get? id with
  | none => simp
  | some n => simp [eq_comm]

theorem get?_setValue {s t : Store} {id : NodeId} {value : String}
    (hok : s.setValue id value = .ok t) (j : NodeId) :
    t.get? j = (s.get? j).map fun n => if j = id then { n with value := value } else n := by
  obtain ⟨_, rfl⟩ := setValue_eq_ok_iff.mp hok
  rw [get?_modifyNode]
  split
  · next hj => rw [hj]
  · simp

/-- Trees that differ in the values of their nodes only are trees alike. -/
theorem IsTree.of_values {node? other? : NodeId → Option Node} (h : IsTree node?)
    (f : NodeId → Node → String)
    (ho : ∀ j, other? j = (node? j).map fun n => { n with value := f j n }) : IsTree other? := by
  have hback : ∀ {j n}, other? j = some n → ∃ m, node? j = some m ∧
      n = { m with value := f j m } := by
    intro j n hn
    rw [ho, Option.map_eq_some_iff] at hn
    obtain ⟨m, hm, rfl⟩ := hn
    exact ⟨m, hm, rfl⟩
  have hfwd : ∀ {j m}, node? j = some m → other? j = some { m with value := f j m } := by
    intro j m hm
    rw [ho, hm]
    rfl
  refine ⟨?_, ?_, ?_, ?_, ?_⟩
  · obtain ⟨r, hr, hn, hp, hpar⟩ := h.root
    exact ⟨_, hfwd hr, hn, hp, hpar⟩
  · intro j n hn hj
    obtain ⟨m, hm, rfl⟩ := hback hn
    obtain ⟨p, k, hpar, hk, hmem, hpath⟩ := h.above hm hj
    exact ⟨p, _, hpar, hfwd hk, hmem, hpath⟩
  · intro j n c hn hc
    obtain ⟨m, hm, rfl⟩ := hback hn
    obtain ⟨k, hk, hpar⟩ := h.child hm hc
    exact ⟨_, hfwd hk, hpar⟩
  · intro j n hn
    obtain ⟨m, hm, rfl⟩ := hback hn
    have hnodup := h.nodup hm
    exact hnodup
  · intro j n hn hj
    obtain ⟨m, hm, rfl⟩ := hback hn
    have hname := h.name hm hj
    exact hname

theorem Coherent.setValue {s t : Store} (h : Coherent s) {id : NodeId} {value : String}
    (hok : s.setValue id value = .ok t) : Coherent t where
  tree := by
    apply h.tree.of_values fun j n => if j = id then value else n.value
    intro j
    rw [get?_setValue hok]
    congr
    funext n
    split <;> rfl
  indexes := by
    have hentry : t.entry = s.entry := by
      funext j
      rw [entry, entry, get?_setValue hok]
      split
      · rfl
      · cases s.get? j with
        | none => rfl
        | some n => by_cases hj : j = id <;> simp [hj]
    obtain ⟨_, ht⟩ := setValue_eq_ok_iff.mp hok
    rw [hentry]
    exact h.indexes.of_index_eq (by rw [ht]; rfl)
  tracksFree := by
    obtain ⟨_, ht⟩ := setValue_eq_ok_iff.mp hok
    exact ht ▸ h.tracksFree.modifyNode id _

end TreeDatabase.Store
