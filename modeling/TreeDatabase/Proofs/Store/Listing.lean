import Mathlib.Data.List.Flatten
import TreeDatabase.Proofs.Store.Removal

/-!
# Visits by recursion

A visit keeps the handles that are still to come on a stack. What it gives is told by a recursion on
the tree: a node that is entered, followed by the visits of its children in order.
-/

namespace TreeDatabase.Store

variable {s : Store} {enter : NodeId → Node → Bool}

/-! ## The stack -/

/-- More fuel does not change a walk. -/
theorem walk_of_le {fuel more : Nat} {stack : List NodeId} {out : List (NodeId × Node)}
    (hout : s.walk enter fuel stack = some out) (hle : fuel ≤ more) :
    s.walk enter more stack = some out := by
  induction fuel generalizing more stack out with
  | zero =>
    cases stack with
    | nil => simpa only [walk] using hout
    | cons id stack => cases hout
  | succ fuel ih =>
    obtain ⟨more, rfl⟩ := Nat.exists_eq_add_one_of_ne_zero (Nat.ne_of_gt (Nat.zero_lt_of_lt hle))
    have hle' := Nat.le_of_succ_le_succ hle
    cases stack with
    | nil => simpa only [walk] using hout
    | cons id stack =>
      rw [walk] at hout ⊢
      cases hn : s.get? id with
      | none =>
        rw [hn] at hout
        exact ih hout hle'
      | some n =>
        rw [hn] at hout
        dsimp only at hout ⊢
        split at hout
        · next henter =>
          obtain ⟨rest, hrest, rfl⟩ := Option.map_eq_some_iff.mp hout
          rw [if_pos henter, ih hrest hle', Option.map_some]
        · next henter =>
          rw [if_neg henter]
          exact ih hout hle'

/-- A walk is done with the upper part of its stack before it comes to the lower one. -/
theorem walk_append {fuel fuel' : Nat} {stack stack' : List NodeId}
    {out out' : List (NodeId × Node)} (hout : s.walk enter fuel stack = some out)
    (hout' : s.walk enter fuel' stack' = some out') :
    s.walk enter (fuel + fuel') (stack ++ stack') = some (out ++ out') := by
  induction fuel generalizing stack out with
  | zero =>
    cases stack with
    | nil =>
      rw [walk, Option.some_inj] at hout
      rw [← hout]
      exact walk_of_le hout' (Nat.le_add_left _ _)
    | cons id stack => cases hout
  | succ fuel ih =>
    cases stack with
    | nil =>
      rw [walk, Option.some_inj] at hout
      rw [← hout]
      exact walk_of_le hout' (Nat.le_add_left _ _)
    | cons id stack =>
      rw [List.cons_append, Nat.succ_add, walk] at *
      cases hn : s.get? id with
      | none =>
        rw [hn] at hout
        exact ih hout
      | some n =>
        rw [hn] at hout
        dsimp only at hout ⊢
        split at hout
        · next henter =>
          obtain ⟨rest, hrest, rfl⟩ := Option.map_eq_some_iff.mp hout
          rw [if_pos henter, ← List.append_assoc, ih hrest, Option.map_some, List.cons_append]
        · next henter =>
          rw [if_neg henter]
          exact ih hout

theorem walk_unique {fuel fuel' : Nat} {stack : List NodeId} {out out' : List (NodeId × Node)}
    (hout : s.walk enter fuel stack = some out) (hout' : s.walk enter fuel' stack = some out') :
    out = out' := by
  have hleft := walk_of_le hout (Nat.le_max_left fuel fuel')
  have hright := walk_of_le hout' (Nat.le_max_right fuel fuel')
  exact Option.some.inj (hleft.symm.trans hright)

/-! ## The recursion -/

theorem Coherent.walk_visit (h : Coherent s) {id : NodeId} {n : Node} (hn : s.get? id = some n)
    (enter : NodeId → Node → Bool) :
    s.walk enter s.nodes.size [id] = some (s.visit enter id) := by
  obtain ⟨out, hout⟩ := h.walk_eq_some hn enter (frontier_start s id) (Nat.le_add_left _ _)
  rw [visit, hout, Option.getD_some]

/-- A walk from a stack of nodes gives their visits one after the other. -/
theorem Coherent.walk_visits (h : Coherent s) (enter : NodeId → Node → Bool) {ids : List NodeId}
    (hlive : ∀ id ∈ ids, ∃ n, s.get? id = some n) :
    ∃ fuel, s.walk enter fuel ids = some (ids.flatMap (s.visit enter)) := by
  induction ids with
  | nil => exact ⟨0, rfl⟩
  | cons id ids ih =>
    obtain ⟨n, hn⟩ := hlive id List.mem_cons_self
    obtain ⟨fuel, hrest⟩ := ih fun c hc => hlive c (List.mem_cons_of_mem _ hc)
    exact ⟨_, walk_append (h.walk_visit hn enter) hrest⟩

/-- The visit of a node gives the node and then the visits of its children, or nothing. -/
theorem Coherent.visit_eq (h : Coherent s) {id : NodeId} {n : Node} (hn : s.get? id = some n)
    (enter : NodeId → Node → Bool) : s.visit enter id =
      if enter id n then (id, n) :: n.children.flatMap (s.visit enter) else [] := by
  have hwalk := h.walk_visit hn enter
  obtain ⟨fuel, hsize⟩ := Nat.exists_eq_add_one_of_ne_zero (Nat.ne_zero_of_lt (slot_lt_of_get? hn))
  rw [hsize, walk, hn] at hwalk
  dsimp only at hwalk
  split at hwalk
  · next henter =>
    obtain ⟨rest, hrest, hout⟩ := Option.map_eq_some_iff.mp hwalk
    obtain ⟨fuel', hchildren⟩ := h.walk_visits enter fun c hc => by
      obtain ⟨m, hm, _⟩ := h.tree.child hn hc
      exact ⟨m, hm⟩
    rw [List.append_nil] at hrest
    rw [if_pos henter, ← hout, walk_unique hrest hchildren]
  · next henter =>
    rw [walk, Option.some_inj] at hwalk
    rw [if_neg henter, hwalk]

/-- What holds of a node when it holds of its children holds of all nodes. -/
theorem Coherent.induction (h : Coherent s) {motive : NodeId → Prop}
    (node : ∀ id n, s.get? id = some n → (∀ c ∈ n.children, motive c) → motive id) {id : NodeId}
    {n : Node} (hn : s.get? id = some n) : motive id := by
  induction hsize : (s.subtree id).length using Nat.strongRecOn generalizing id n with
  | _ size ih =>
    refine node id n hn fun c hc => ?_
    obtain ⟨m, hm, _⟩ := h.tree.child hn hc
    refine ih _ ?_ hm rfl
    -- the subtree of a child is part of what follows the node
    have hsub : (s.visit (fun _ _ => true) c).Sublist
        (n.children.flatMap (s.visit fun _ _ => true)) := by
      have hflat := (List.singleton_sublist.mpr hc).flatMap (s.visit fun _ _ => true)
      rwa [List.flatMap_singleton] at hflat
    have hlength := hsub.length_le
    rw [← hsize, subtree, subtree, h.visit_eq hn, if_pos rfl, List.length_map, List.length_map,
      List.length_cons]
    exact Nat.lt_succ_of_le hlength

/-! ## What a visit meets -/

/-- A visit that enters some nodes only meets nodes that the visit of the whole subtree meets, in
the same order. -/
theorem Coherent.visit_sublist (h : Coherent s) (enter : NodeId → Node → Bool) {id : NodeId}
    {n : Node} (hn : s.get? id = some n) :
    (s.visit enter id).Sublist (s.visit (fun _ _ => true) id) := by
  refine h.induction (motive := fun id => (s.visit enter id).Sublist
    (s.visit (fun _ _ => true) id)) (fun id n hn ih => ?_) hn
  rw [h.visit_eq hn, h.visit_eq hn, if_pos rfl]
  split
  · exact (List.Sublist.flatMap_right _ ih).cons_cons _
  · exact List.nil_sublist _

theorem Coherent.live_of_mem_visit (h : Coherent s) {id : NodeId} {n : Node}
    (hn : s.get? id = some n) {entry : NodeId × Node} (hentry : entry ∈ s.visit enter id) :
    s.get? entry.1 = some entry.2 :=
  (h.visits hn).live entry ((h.visit_sublist enter hn).subset hentry)

theorem Coherent.below_of_mem_visit (h : Coherent s) {id : NodeId} {n : Node}
    (hn : s.get? id = some n) {c : NodeId} (hc : c ∈ (s.visit enter id).map Prod.fst) :
    s.Below id c :=
  ((h.visits hn).mem_iff c).mp (((h.visit_sublist enter hn).map Prod.fst).subset hc)

theorem Coherent.nodup_visit (h : Coherent s) (enter : NodeId → Node → Bool) {id : NodeId}
    {n : Node} (hn : s.get? id = some n) : ((s.visit enter id).map Prod.fst).Nodup :=
  (h.visits hn).nodup.sublist ((h.visit_sublist enter hn).map Prod.fst)

/-! ## Subtrees of one depth -/

/-- Of nodes at one depth only one is above a node. -/
theorem Coherent.eq_of_below (h : Coherent s) {i j id : NodeId} {names names' : List String}
    (hi : s.Leads names i) (hj : s.Leads names' j) (hlength : names.length = names'.length)
    (hbi : s.Below i id) (hbj : s.Below j id) : i = j := by
  obtain ⟨below, hl⟩ := h.leads_of_below hi hbi
  obtain ⟨below', hl'⟩ := h.leads_of_below hj hbj
  obtain ⟨rfl, _⟩ := List.append_inj (h.leads_unique hl hl') hlength
  exact h.leads_inj hi hj

end TreeDatabase.Store
