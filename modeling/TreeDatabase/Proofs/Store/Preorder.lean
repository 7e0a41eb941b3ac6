import Mathlib.Data.List.Basic
import Mathlib.Logic.Function.Iterate
import TreeDatabase.Proofs.Store.Changes
import TreeDatabase.Proofs.Store.Listing

/-!
# Subtrees in preorder

A subtree is listed by a loop over a stack of handles, which remembers nothing of what it has
listed. In a tree the loop comes to its end all the same, and it lists what the recursion lists that
takes a node and then the subtrees of its children.
-/

namespace TreeDatabase.Store

variable {s : Store}

/-! ## The loop -/

/-- One turn of the loop, on the handles that are still to come and those that were listed. The next
handle is the last one of the stack. Its children are put on the stack from the last to the first; a
handle without a node is passed over. -/
def turn (s : Store) (state : List NodeId × List NodeId) : List NodeId × List NodeId :=
  match state.1.getLast? with
  | none => state
  | some id =>
    match s.get? id with
    | none => (state.1.dropLast, state.2)
    | some n => (state.1.dropLast ++ n.children.reverse, state.2 ++ [id])

/-- A walk that enters every node takes the turns of the loop, from the same handles. -/
theorem exists_turns_of_walk {fuel : Nat} {stack : List NodeId} {out : List (NodeId × Node)}
    (hout : s.walk (fun _ _ => true) fuel stack = some out) (listed : List NodeId) :
    ∃ turns ≤ fuel, s.turn^[turns] (stack.reverse, listed) = ([], listed ++ out.map Prod.fst) := by
  induction fuel generalizing stack out listed with
  | zero =>
    cases stack with
    | nil =>
      cases hout
      exact ⟨0, Nat.le_refl 0, by simp⟩
    | cons id stack => cases hout
  | succ fuel ih =>
    cases stack with
    | nil =>
      cases hout
      exact ⟨0, Nat.zero_le _, by simp⟩
    | cons id stack =>
      rw [walk] at hout
      cases hn : s.get? id with
      | none =>
        rw [hn] at hout
        obtain ⟨turns, hle, hturns⟩ := ih hout listed
        have hturn : s.turn ((id :: stack).reverse, listed) = (stack.reverse, listed) := by
          simp [turn, hn]
        exact ⟨turns + 1, Nat.succ_le_succ hle, by rw [Function.iterate_succ_apply, hturn, hturns]⟩
      | some n =>
        rw [hn] at hout
        obtain ⟨rest, hrest, rfl⟩ := Option.map_eq_some_iff.mp hout
        obtain ⟨turns, hle, hturns⟩ := ih hrest (listed ++ [id])
        have hturn : s.turn ((id :: stack).reverse, listed) =
            ((n.children ++ stack).reverse, listed ++ [id]) := by
          simp [turn, hn]
        refine ⟨turns + 1, Nat.succ_le_succ hle, ?_⟩
        rw [Function.iterate_succ_apply, hturn, hturns, List.append_assoc, List.map_cons,
          List.singleton_append]

/-! ## The recursion -/

/-- The lists of the recursion: a node and then the lists of its children in order. A handle without
a node has an empty list. -/
structure IsPreorder (s : Store) (order : NodeId → List NodeId) : Prop where
  stale : ∀ id, s.get? id = none → order id = []
  node : ∀ id n, s.get? id = some n → order id = id :: n.children.flatMap order

theorem visit_of_stale (h : Coherent s) {id : NodeId} (hnone : s.get? id = none)
    (enter : NodeId → Node → Bool) :
    s.walk enter s.nodes.size [id] = some [] ∧ s.visit enter id = [] := by
  obtain ⟨r, hr, _⟩ := h.tree.root
  obtain ⟨fuel, hsize⟩ := Nat.exists_eq_add_one_of_ne_zero (Nat.ne_zero_of_lt (slot_lt_of_get? hr))
  have hwalk : s.walk enter s.nodes.size [id] = some [] := by rw [hsize, walk, hnone, walk]
  exact ⟨hwalk, by rw [visit, hwalk, Option.getD_some]⟩

theorem Below.trans {top id c : NodeId} (hb : s.Below top id) (hc : s.Below id c) :
    s.Below top c := by
  induction hc with
  | self => exact hb
  | child _ live member ih => exact ih.child live member

namespace Coherent

theorem isPreorder_subtree (h : Coherent s) : s.IsPreorder s.subtree where
  stale id hnone := by rw [subtree, (visit_of_stale h hnone _).2, List.map_nil]
  node id n hn := by
    rw [subtree, h.visit_eq hn, if_pos rfl, List.map_cons, List.map_flatMap]
    rfl

/-- The recursion has one result. -/
theorem eq_of_isPreorder (h : Coherent s) {order other : NodeId → List NodeId}
    (ho : s.IsPreorder order) (ho' : s.IsPreorder other) : order = other := by
  funext id
  cases hn : s.get? id with
  | none => rw [ho.stale id hn, ho'.stale id hn]
  | some n =>
    refine h.induction (motive := fun id => order id = other id) (fun id n hn ih => ?_) hn
    rw [ho.node id n hn, ho'.node id n hn, List.flatMap_congr ih]

/-- The loop ends after no more turns than there are slots. -/
theorem exists_turns (h : Coherent s) (id : NodeId) :
    ∃ turns ≤ s.nodes.size, s.turn^[turns] ([id], []) = ([], s.subtree id) := by
  have hwalk : s.walk (fun _ _ => true) s.nodes.size [id] =
      some (s.visit (fun _ _ => true) id) := by
    cases hn : s.get? id with
    | none => rw [(visit_of_stale h hn _).1, (visit_of_stale h hn _).2]
    | some n => exact h.walk_visit hn _
  exact exists_turns_of_walk hwalk []

/-! ## The order -/

/-- No node lies below two children of a node. -/
theorem eq_of_below_children (h : Coherent s) {parent c d id : NodeId} {n : Node}
    (hn : s.get? parent = some n) (hc : c ∈ n.children) (hd : d ∈ n.children)
    (hbc : s.Below c id) (hbd : s.Below d id) : c = d := by
  by_contra hne
  rcases h.below_or_below hbc hbd with hb | hb
  · exact h.not_below_child hn hc (h.below_parent hn hd hb hne)
  · exact h.not_below_child hn hd (h.below_parent hn hc hb (Ne.symm hne))

/-- Nothing is listed behind a node that lies below it. -/
theorem pairwise_subtree (h : Coherent s) {id : NodeId} {n : Node} (hn : s.get? id = some n) :
    (s.subtree id).Pairwise fun a b => ¬ s.Below b a := by
  refine h.induction (motive := fun id => (s.subtree id).Pairwise fun a b => ¬ s.Below b a)
    (fun id n hn ih => ?_) hn
  have hlive : ∀ c ∈ n.children, ∃ m, s.get? c = some m := by
    intro c hc
    obtain ⟨m, hm, _⟩ := h.tree.child hn hc
    exact ⟨m, hm⟩
  rw [h.isPreorder_subtree.node id n hn, List.pairwise_cons]
  constructor
  · intro b hb hbelow
    obtain ⟨c, hc, hbc⟩ := List.mem_flatMap.mp hb
    obtain ⟨m, hm⟩ := hlive c hc
    exact h.not_below_child hn hc (((h.mem_subtree_iff hm).mp hbc).trans hbelow)
  · rw [List.pairwise_flatMap]
    refine ⟨ih, (h.tree.nodup hn).imp_of_mem fun {c d} hc hd hne a ha b hb hbelow => hne ?_⟩
    obtain ⟨m, hm⟩ := hlive c hc
    obtain ⟨k, hk⟩ := hlive d hd
    exact h.eq_of_below_children hn hc hd ((h.mem_subtree_iff hm).mp ha)
      (((h.mem_subtree_iff hk).mp hb).trans hbelow)

/-- The subtree of a node below another one is a contiguous part of the subtree of this. -/
theorem subtree_infix (h : Coherent s) {id c : NodeId} (hb : s.Below id c) :
    s.subtree c <:+: s.subtree id := by
  induction hb with
  | self => exact List.infix_refl _
  | @child p c n _ live member ih =>
    obtain ⟨before, after, hsplit⟩ := List.append_of_mem member
    refine List.IsInfix.trans ⟨p :: before.flatMap s.subtree, after.flatMap s.subtree, ?_⟩ ih
    rw [h.isPreorder_subtree.node p n live, hsplit]
    simp

end Coherent

/-- What a loop over a stack makes of the subtrees of a store. -/
structure ListsSubtrees (s : Store) : Prop where
  /-- It ends, and has listed the subtree then. -/
  ends : ∀ id, ∃ turns ≤ s.nodes.size, s.turn^[turns] ([id], []) = ([], s.subtree id)
  preorder : s.IsPreorder s.subtree
  unique : ∀ order, s.IsPreorder order → order = s.subtree
  mem_iff : ∀ id n, s.get? id = some n → ∀ c, c ∈ s.subtree id ↔ s.Below id c
  nodup : ∀ id, (s.subtree id).Nodup
  /-- A node stands before those below it. -/
  above : ∀ id, (s.subtree id).Pairwise fun a b => ¬ s.Below b a
  contiguous : ∀ id c, s.Below id c → s.subtree c <:+: s.subtree id

theorem Coherent.listsSubtrees (h : Coherent s) : s.ListsSubtrees where
  ends := h.exists_turns
  preorder := h.isPreorder_subtree
  unique _ ho := h.eq_of_isPreorder ho h.isPreorder_subtree
  mem_iff _ _ hn _ := h.mem_subtree_iff hn
  nodup id := by
    cases hn : s.get? id with
    | none =>
      rw [h.isPreorder_subtree.stale id hn]
      exact List.nodup_nil
    | some n => exact h.nodup_subtree hn
  above id := by
    cases hn : s.get? id with
    | none =>
      rw [h.isPreorder_subtree.stale id hn]
      exact List.Pairwise.nil
    | some n => exact h.pairwise_subtree hn
  contiguous _ _ hb := h.subtree_infix hb

end Store

/-- After any changes the subtree of every node is listed in preorder, and that of a handle without
a node is empty. -/
theorem listsSubtrees_run (changes : List Change) : (Change.run changes).ListsSubtrees :=
  (Change.coherent_run changes).listsSubtrees

end TreeDatabase
