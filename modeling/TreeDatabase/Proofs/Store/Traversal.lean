import TreeDatabase.Proofs.Store.Coherence

/-!
# Traversals

A walk through a coherent store meets no node twice, so that the number of slots bounds its steps,
and the visit of a node lists exactly the node and what lies below it, parents first.
-/

namespace TreeDatabase.Store

variable {s : Store} {start : NodeId}

/-- The handles that a walk has taken off its stack, and those on the stack. They are distinct, and
each is the start or a child of one taken off before. -/
structure Frontier (s : Store) (start : NodeId) (seen stack : List NodeId) : Prop where
  nodup : (seen ++ stack).Nodup
  below : ∀ id ∈ seen ++ stack, s.Below start id
  above : ∀ id ∈ seen ++ stack, id = start ∨ ∃ p n, p ∈ seen ∧ s.get? p = some n ∧ id ∈ n.children

theorem frontier_start (s : Store) (start : NodeId) : Frontier s start [] [start] := by
  refine ⟨by simp, ?_, ?_⟩
  · intro id hid
    rw [List.nil_append, List.mem_singleton] at hid
    exact hid ▸ .self
  · intro id hid
    rw [List.nil_append, List.mem_singleton] at hid
    exact .inl hid

/-- Taking a handle off the stack without entering its node. -/
theorem Frontier.skip {seen stack : List NodeId} {id : NodeId}
    (hf : Frontier s start seen (id :: stack)) : Frontier s start (seen ++ [id]) stack := by
  have hlist : seen ++ [id] ++ stack = seen ++ id :: stack := by simp
  refine ⟨hlist ▸ hf.nodup, hlist ▸ hf.below, ?_⟩
  intro c hc
  rcases hf.above c (hlist ▸ hc) with rfl | ⟨p, n, hp, hn, hm⟩
  · exact .inl rfl
  · exact .inr ⟨p, n, List.mem_append_left _ hp, hn, hm⟩

/-- The children of the node on top of the stack have not been met. -/
theorem Coherent.children_fresh (h : Coherent s) {seen stack : List NodeId} {id : NodeId}
    {t n : Node} (ht : s.get? start = some t) (hf : Frontier s start seen (id :: stack))
    (hn : s.get? id = some n) : ∀ c ∈ n.children, c ∉ seen ++ id :: stack := by
  intro c hc hmem
  obtain ⟨m, hm, _⟩ := h.tree.child hn hc
  have hlt := h.tree.length_path_lt hn hc hm
  rcases hf.above c hmem with rfl | ⟨p, k, hp, hk, hck⟩
  · -- the start lies above all nodes that are met
    have hb := h.length_path_lt_of_below ht (hf.below id (by simp)) hn
    rw [ht] at hm
    cases hm
    rcases hb with rfl | hb
    · rw [ht] at hn
      cases hn
      exact absurd hlt (Nat.lt_irrefl _)
    · omega
  · have hpid : p = id := h.tree.parent_unique hk hn hck hc
    have hnodup := List.nodup_append.mp hf.nodup
    exact hnodup.2.2 p hp id (by simp) hpid

/-- Taking a handle off the stack and putting the children of its node on it. -/
theorem Coherent.frontier_enter (h : Coherent s) {seen stack : List NodeId} {id : NodeId}
    {t n : Node} (ht : s.get? start = some t) (hf : Frontier s start seen (id :: stack))
    (hn : s.get? id = some n) : Frontier s start (seen ++ [id]) (n.children ++ stack) := by
  have hfresh := h.children_fresh ht hf hn
  have hskip := hf.skip
  refine ⟨?_, ?_, ?_⟩
  · have hperm : (seen ++ [id] ++ (n.children ++ stack)).Perm
        (n.children ++ (seen ++ id :: stack)) := by
      have := (List.perm_append_comm_assoc (seen ++ [id]) n.children stack)
      simpa using this
    rw [hperm.nodup_iff, List.nodup_append]
    refine ⟨h.tree.nodup hn, hf.nodup, ?_⟩
    rintro c hc d hd rfl
    exact hfresh c hc hd
  · intro c hc
    rw [List.mem_append, List.mem_append (s := n.children), or_left_comm] at hc
    rcases hc with hc | hc
    · exact (hf.below id (by simp)).child hn hc
    · exact hskip.below c (List.mem_append.mpr hc)
  · intro c hc
    rw [List.mem_append, List.mem_append (s := n.children), or_left_comm] at hc
    rcases hc with hc | hc
    · exact .inr ⟨id, n, by simp, hn, hc⟩
    · exact hskip.above c (List.mem_append.mpr hc)

theorem Coherent.live_of_frontier (h : Coherent s) {seen stack : List NodeId} {t : Node}
    (ht : s.get? start = some t) (hf : Frontier s start seen stack) :
    ∀ id ∈ seen ++ stack, ∃ n, s.get? id = some n :=
  fun id hid => h.live_of_below ht (hf.below id hid)

/-- Distinct nodes are no more than there are slots. -/
theorem length_le_of_nodup {ids : List NodeId} (hnodup : ids.Nodup)
    (hlive : ∀ id ∈ ids, ∃ n, s.get? id = some n) : ids.length ≤ s.nodes.size := by
  have hslots : (ids.map NodeId.slot).Nodup := by
    rw [List.nodup_iff_pairwise_ne, List.pairwise_map]
    refine hnodup.imp ?_
    rintro ⟨i⟩ ⟨j⟩ hne he
    exact hne (congrArg NodeId.mk he)
  have hsub : ids.map NodeId.slot ⊆ List.range s.nodes.size := by
    intro k hk
    obtain ⟨id, hid, rfl⟩ := List.mem_map.mp hk
    obtain ⟨n, hn⟩ := hlive id hid
    exact List.mem_range.mpr (slot_lt_of_get? hn)
  simpa using hslots.length_le_of_subset hsub

/-- The number of slots is fuel enough for a walk, whichever nodes it enters. -/
theorem Coherent.walk_eq_some (h : Coherent s) {t : Node} (ht : s.get? start = some t)
    (enter : NodeId → Node → Bool) {fuel : Nat} {seen stack : List NodeId}
    (hf : Frontier s start seen stack) (hfuel : s.nodes.size ≤ seen.length + fuel) :
    ∃ out, s.walk enter fuel stack = some out := by
  induction fuel generalizing seen stack with
  | zero =>
    cases stack with
    | nil => exact ⟨[], by rw [walk]⟩
    | cons id stack =>
      have hlen := length_le_of_nodup hf.nodup (h.live_of_frontier ht hf)
      simp only [List.length_append, List.length_cons] at hlen
      omega
  | succ fuel ih =>
    cases stack with
    | nil => exact ⟨[], by rw [walk]⟩
    | cons id stack =>
      obtain ⟨n, hn⟩ := h.live_of_frontier ht hf id (by simp)
      have hfuel' : s.nodes.size ≤ (seen ++ [id]).length + fuel := by
        rw [List.length_append, List.length_singleton]
        omega
      rw [walk, hn]
      dsimp only
      split
      · obtain ⟨out, hout⟩ := ih (h.frontier_enter ht hf hn) hfuel'
        exact ⟨(id, n) :: out, by rw [hout, Option.map_some]⟩
      · exact ih hf.skip hfuel'

/-! ## Visits that enter every node -/

/-- Each handle of a list is the start or a child of one that stands before it. -/
def ParentsFirst (s : Store) (start : NodeId) : (before ids : List NodeId) → Prop
  | _, [] => True
  | before, id :: ids =>
    (id = start ∨ ∃ p n, p ∈ before ∧ s.get? p = some n ∧ id ∈ n.children) ∧
      ParentsFirst s start (before ++ [id]) ids

/-- The visit of a subtree: its nodes, each once and parents first. -/
structure Visits (s : Store) (start : NodeId) (out : List (NodeId × Node)) : Prop where
  live : ∀ entry ∈ out, s.get? entry.1 = some entry.2
  nodup : (out.map Prod.fst).Nodup
  mem_iff : ∀ id, id ∈ out.map Prod.fst ↔ s.Below start id
  parentsFirst : ParentsFirst s start [] (out.map Prod.fst)

/-- What a walk gives that enters every node it meets. -/
theorem Coherent.walk_all (h : Coherent s) {t : Node} (ht : s.get? start = some t) {fuel : Nat}
    {seen stack : List NodeId} {out : List (NodeId × Node)} (hf : Frontier s start seen stack)
    (hout : s.walk (fun _ _ => true) fuel stack = some out) :
    (∀ entry ∈ out, s.get? entry.1 = some entry.2) ∧ (seen ++ out.map Prod.fst).Nodup ∧
      (∀ id ∈ out.map Prod.fst, s.Below start id) ∧ stack ⊆ out.map Prod.fst ∧
      (∀ entry ∈ out, entry.2.children ⊆ out.map Prod.fst) ∧
      ParentsFirst s start seen (out.map Prod.fst) := by
  induction fuel generalizing seen stack out with
  | zero =>
    cases stack with
    | nil =>
      rw [walk] at hout
      cases hout
      exact ⟨by simp, by simpa using hf.nodup, by simp, by simp, by simp, trivial⟩
    | cons id stack => cases hout
  | succ fuel ih =>
    cases stack with
    | nil =>
      rw [walk] at hout
      cases hout
      exact ⟨by simp, by simpa using hf.nodup, by simp, by simp, by simp, trivial⟩
    | cons id stack =>
      obtain ⟨n, hn⟩ := h.live_of_frontier ht hf id (by simp)
      rw [walk, hn] at hout
      simp only [↓reduceIte, Option.map_eq_some_iff] at hout
      obtain ⟨rest, hrest, rfl⟩ := hout
      obtain ⟨hlive, hnodup, hbelow, hsub, hclosed, hfirst⟩ := ih (h.frontier_enter ht hf hn) hrest
      have hsub' := List.append_subset.mp hsub
      refine ⟨?_, ?_, ?_, ?_, ?_, ?_⟩
      · rintro entry (_ | ⟨_, hentry⟩)
        · exact hn
        · exact hlive entry hentry
      · simpa using hnodup
      · rintro c (_ | ⟨_, hc⟩)
        · exact hf.below id (by simp)
        · exact hbelow c hc
      · rintro c (_ | ⟨_, hc⟩)
        · exact List.mem_cons_self
        · exact List.mem_cons_of_mem _ (hsub'.2 hc)
      · rintro entry (_ | ⟨_, hentry⟩)
        · exact List.subset_cons_of_subset _ hsub'.1
        · exact List.subset_cons_of_subset _ (hclosed entry hentry)
      · exact ⟨hf.above id (by simp), hfirst⟩

theorem Coherent.visits (h : Coherent s) {t : Node} (ht : s.get? start = some t) :
    Visits s start (s.visit (fun _ _ => true) start) := by
  have hf := frontier_start s start
  have hfuel : s.nodes.size ≤ ([] : List NodeId).length + s.nodes.size := by simp
  obtain ⟨out, hout⟩ := h.walk_eq_some ht (fun _ _ => true) hf hfuel
  obtain ⟨hlive, hnodup, hbelow, hsub, hclosed, hfirst⟩ := h.walk_all ht hf hout
  rw [visit, hout, Option.getD_some]
  refine ⟨hlive, by simpa using hnodup, ?_, hfirst⟩
  intro id
  constructor
  · exact hbelow id
  · intro hb
    induction hb with
    | self => exact hsub (by simp)
    | child _ live member ih =>
      obtain ⟨entry, hentry, rfl⟩ := List.mem_map.mp ih
      rw [hlive entry hentry] at live
      cases live
      exact hclosed entry hentry member

theorem Coherent.mem_subtree_iff (h : Coherent s) {t : Node} (ht : s.get? start = some t)
    {id : NodeId} : id ∈ s.subtree start ↔ s.Below start id :=
  (h.visits ht).mem_iff id

theorem Coherent.nodup_subtree (h : Coherent s) {t : Node} (ht : s.get? start = some t) :
    (s.subtree start).Nodup := (h.visits ht).nodup

theorem Coherent.visit_eq_cons (h : Coherent s) {t : Node} (ht : s.get? start = some t) :
    ∃ below, s.visit (fun _ _ => true) start = (start, t) :: below := by
  have hv := h.visits ht
  cases hout : s.visit (fun _ _ => true) start with
  | nil =>
    rw [hout] at hv
    have := (hv.mem_iff start).mpr .self
    cases this
  | cons entry below =>
    rw [hout] at hv
    obtain ⟨id, n⟩ := entry
    have hid : id = start := by simpa using hv.parentsFirst.1
    have hn := hv.live _ List.mem_cons_self
    subst hid
    rw [ht] at hn
    cases hn
    exact ⟨below, rfl⟩

end TreeDatabase.Store
