import Mathlib.Logic.Function.Basic
import Std.Data.TreeMap.Lemmas
import TreeDatabase.Proofs.Path

/-!
# Slots and index

What the elementary changes do to the nodes behind the handles, to the entries of the index and to
the free slots. The index is described by a function that gives each handle the name and path under
which it is entered: while a subtree is renamed these are not yet those of its node.
-/

namespace TreeDatabase.Store

theorem get?_of_nodes_eq {s t : Store} (h : t.nodes = s.nodes) (id : NodeId) :
    t.get? id = s.get? id := by
  rw [get?, get?, h]

theorem get?_eq_some_iff {s : Store} {id : NodeId} {n : Node} :
    s.get? id = some n ↔ s.nodes[id.slot]? = some (some n) := by
  rw [get?]
  cases s.nodes[id.slot]? <;> simp

theorem children_of_get? {s : Store} {id : NodeId} {n : Node} (h : s.get? id = some n) :
    s.children id = n.children := by
  rw [children, h]

theorem mem_children_iff {s : Store} {id c : NodeId} :
    c ∈ s.children id ↔ ∃ n, s.get? id = some n ∧ c ∈ n.children := by
  rw [children]
  cases s.get? id <;> simp

theorem slot_lt_of_get? {s : Store} {id : NodeId} {n : Node} (h : s.get? id = some n) :
    id.slot < s.nodes.size :=
  (Array.getElem?_eq_some_iff.mp (get?_eq_some_iff.mp h)).1

@[simp] theorem get?_addToIndex (s : Store) (name path : String) (id j : NodeId) :
    (s.addToIndex name path id).get? j = s.get? j := rfl

@[simp] theorem nodes_removeFromIndex (s : Store) (name path : String) :
    (s.removeFromIndex name path).nodes = s.nodes := by
  rw [removeFromIndex]
  split <;> rfl

@[simp] theorem free_removeFromIndex (s : Store) (name path : String) :
    (s.removeFromIndex name path).free = s.free := by
  rw [removeFromIndex]
  split <;> rfl

@[simp] theorem get?_removeFromIndex (s : Store) (name path : String) (id : NodeId) :
    (s.removeFromIndex name path).get? id = s.get? id :=
  get?_of_nodes_eq (by simp) id

theorem get?_modifyNode (s : Store) (id : NodeId) (f : Node → Node) (j : NodeId) :
    (s.modifyNode id f).get? j = if j = id then (s.get? id).map f else s.get? j := by
  obtain ⟨slot⟩ := id
  obtain ⟨k⟩ := j
  simp only [modifyNode, get?, NodeId.mk.injEq, Array.getElem?_modify]
  split
  · next h =>
    subst h
    cases s.nodes[slot]? <;> simp
  · next h => rw [if_neg (Ne.symm h)]

/-! ## Entries of the index -/

/-- The index has exactly the entries that a function from handles to names and paths gives, and no
name without a path. -/
structure Indexes (s : Store) (entry : NodeId → Option (String × String)) : Prop where
  indexed : ∀ name path id, s.indexed? name path = some id ↔ entry id = some (name, path)
  nonempty : ∀ (name : String) (paths : PathIndex), s.index[name]? = some paths →
    paths.isEmpty = false

theorem indexed?_eq_some_iff {s : Store} {name path : String} {id : NodeId} :
    s.indexed? name path = some id ↔
      ∃ paths, s.index[name]? = some paths ∧ paths[path]? = some id := by
  simp [indexed?, Option.bind_eq_some_iff]

theorem indexed?_addToIndex (s : Store) (name path : String) (id : NodeId) (n p : String) :
    (s.addToIndex name path id).indexed? n p =
      if n = name ∧ p = path then some id else s.indexed? n p := by
  simp only [addToIndex, indexed?, Std.TreeMap.getElem?_insert, Std.compare_eq_iff_eq]
  by_cases hn : name = n
  · subst hn
    simp only [↓reduceIte, Option.bind_some, Std.TreeMap.getElem?_insert, Std.compare_eq_iff_eq,
      true_and, Std.TreeMap.getD_eq_getD_getElem?]
    by_cases hp : path = p
    · simp [hp]
    · rw [if_neg hp, if_neg (Ne.symm hp)]
      cases s.index[name]? <;> simp
  · simp [hn, Ne.symm hn]

theorem indexed?_removeFromIndex (s : Store) (name path n p : String) :
    (s.removeFromIndex name path).indexed? n p =
      if n = name ∧ p = path then none else s.indexed? n p := by
  rw [removeFromIndex]
  by_cases hn : n = name
  · subst hn
    cases hpaths : s.index[n]? with
    | none => simp [indexed?, hpaths]
    | some paths =>
      have herase : (paths.erase path)[p]? = if p = path then none else paths[p]? := by
        simp only [Std.TreeMap.getElem?_erase, Std.compare_eq_iff_eq, eq_comm (a := path)]
      simp only [indexed?, true_and]
      by_cases he : (paths.erase path).isEmpty
      · have hnone : (paths.erase path)[p]? = none := Std.TreeMap.getElem?_of_isEmpty he
        simp only [he, ↓reduceIte, Std.TreeMap.getElem?_erase_self, Option.bind_none, hpaths,
          Option.bind_some, ← herase, hnone]
      · simp only [he, Bool.false_eq_true, ↓reduceIte, Std.TreeMap.getElem?_insert_self,
          Option.bind_some, hpaths, herase]
  · split
    · simp [hn]
    · next paths _ =>
      simp only [indexed?, hn, false_and, ↓reduceIte]
      split
      · rw [Std.TreeMap.getElem?_erase, if_neg (by simpa using Ne.symm hn)]
      · rw [Std.TreeMap.getElem?_insert, if_neg (by simpa using Ne.symm hn)]

namespace Indexes

variable {s : Store} {entry : NodeId → Option (String × String)}

theorem inj (h : Indexes s entry) {i j : NodeId} {k : String × String} (hi : entry i = some k)
    (hj : entry j = some k) : i = j := by
  have hi' := (h.indexed k.1 k.2 i).mpr hi
  rw [(h.indexed k.1 k.2 j).mpr hj] at hi'
  exact (Option.some.inj hi').symm

theorem of_index_eq (h : Indexes s entry) {t : Store} (ht : t.index = s.index) :
    Indexes t entry where
  indexed name path id := by rw [← h.indexed, indexed?, indexed?, ht]
  nonempty name paths hp := h.nonempty name paths (ht ▸ hp)

/-- A handle that is not entered may be entered where no other one is. -/
theorem addToIndex (h : Indexes s entry) {name path : String} {id : NodeId}
    (hid : entry id = none) (hfree : ∀ j, entry j ≠ some (name, path)) :
    Indexes (s.addToIndex name path id) (Function.update entry id (some (name, path))) where
  indexed n p j := by
    rw [indexed?_addToIndex]
    by_cases hj : j = id
    · subst hj
      rw [Function.update_self]
      split
      · next hk => simp [hk]
      · next hk =>
        rw [h.indexed, hid]
        simpa [eq_comm] using hk
    · rw [Function.update_of_ne hj, ← h.indexed]
      split
      · next hk =>
        obtain ⟨rfl, rfl⟩ := hk
        constructor
        · intro he
          exact absurd (Option.some.inj he).symm hj
        · intro he
          exact absurd ((h.indexed _ _ _).mp he) (hfree j)
      · rfl
  nonempty n paths hp := by
    simp only [Store.addToIndex, Std.TreeMap.getElem?_insert, Std.compare_eq_iff_eq] at hp
    split at hp
    · rw [← Option.some.inj hp]
      simp
    · exact h.nonempty n paths hp

theorem removeFromIndex (h : Indexes s entry) {name path : String} {id : NodeId}
    (hid : entry id = some (name, path)) :
    Indexes (s.removeFromIndex name path) (Function.update entry id none) where
  indexed n p j := by
    rw [indexed?_removeFromIndex]
    by_cases hj : j = id
    · subst hj
      rw [Function.update_self]
      split
      · simp
      · next hk =>
        rw [h.indexed, hid]
        simpa [eq_comm] using hk
    · rw [Function.update_of_ne hj, ← h.indexed]
      split
      · next hk =>
        obtain ⟨rfl, rfl⟩ := hk
        simp only [reduceCtorEq, false_iff]
        intro he
        exact hj (h.inj ((h.indexed _ _ _).mp he) hid)
      · rfl
  nonempty n paths hp := by
    rw [Store.removeFromIndex] at hp
    split at hp
    · exact h.nonempty n paths hp
    · next old _ =>
      dsimp only at hp
      split at hp
      · rw [Std.TreeMap.getElem?_erase] at hp
        split at hp
        · cases hp
        · exact h.nonempty n paths hp
      · next hne =>
        rw [Std.TreeMap.getElem?_insert] at hp
        split at hp
        · rw [← Option.some.inj hp]
          exact eq_false_of_ne_true hne
        · exact h.nonempty n paths hp

end Indexes

/-! ## Free slots -/

/-- The free slots are those without a node, each listed once. -/
structure TracksFree (s : Store) : Prop where
  nodup : s.free.Nodup
  mem_iff : ∀ slot, slot ∈ s.free ↔ s.nodes[slot]? = some none

theorem TracksFree.of_eq {s t : Store} (h : TracksFree s) (hn : t.nodes = s.nodes)
    (hf : t.free = s.free) : TracksFree t where
  nodup := hf ▸ h.nodup
  mem_iff slot := by rw [hf, hn, h.mem_iff]

theorem TracksFree.modifyNode {s : Store} (h : TracksFree s) (id : NodeId) (f : Node → Node) :
    TracksFree (s.modifyNode id f) where
  nodup := h.nodup
  mem_iff slot := by
    rw [show (s.modifyNode id f).free = s.free from rfl, h.mem_iff]
    simp only [Store.modifyNode, Array.getElem?_modify]
    split
    · next hid =>
      cases s.nodes[slot]? with
      | none => simp
      | some n => cases n <;> simp
    · rfl

end TreeDatabase.Store
