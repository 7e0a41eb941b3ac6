import TreeDatabase.Proofs.Store.Repathing

/-!
# Handles over a change

The slot of a deleted node is given to a later one. A handle denotes the same node all the same for
as long as that node is in the tree: a new node takes a slot which is free, and the free slots are
just those without a node.
-/

namespace TreeDatabase

open Store

namespace Change

variable {s t : Store}

/-- The changes that are asked of one node, whereas the others are made of many such. -/
def isSingle : Change → Bool
  | insertOrGetChild _ _ _ | setValue _ _ | deleteChild _ _ | renameChild _ _ _ => true
  | ensureRuleSubtree | ensureDefaultRuleset _ | load _ | merge _ => false

/-- A change takes a node away: it lies in the subtree that a deletion names. -/
def Removes (s : Store) (c : Change) (id : NodeId) : Prop :=
  ∃ parent name target, c = deleteChild parent name ∧ s.IsChild parent name target ∧
    s.Below target id

/-- What a change makes of a node that stays in the tree, part by part: a part is as before, or it
is the one that the change is about. -/
structure Updates (s : Store) (c : Change) (id : NodeId) (before after : Node) : Prop where
  parent : after.parent = before.parent
  value : after.value = before.value ∨ c = setValue id after.value
  name : after.name = before.name ∨ ∃ parent, c = renameChild parent before.name after.name ∧
    s.IsChild parent before.name id
  path : after.path = before.path ∨ ∃ parent oldName newName target,
    c = renameChild parent oldName newName ∧ s.IsChild parent oldName target ∧ s.Below target id
  /-- The children keep their order, one of them being added at the end or left out. -/
  children : after.children = before.children ∨
    (∃ name value new, c = insertOrGetChild id name value ∧ s.get? new = none ∧
      after.children = before.children ++ [new]) ∨
    ∃ name target, c = deleteChild id name ∧ s.IsChild id name target ∧
      after.children = before.children.filter (· ≠ target)

/-- What becomes of the handles of a store over a change. -/
structure PreservesHandles (s : Store) (c : Change) : Prop where
  kept : ∀ id before, s.get? id = some before → ¬ Removes s c id →
    ∃ after, (apply s c).get? id = some after ∧ Updates s c id before after
  removed : ∀ id, Removes s c id → (apply s c).get? id = none
  /-- The handle of a new node was of no node before. -/
  created : ∀ parent name value id t, c = insertOrGetChild parent name value →
    s.insertOrGetChild parent name value = .ok (t, id, true) →
    s.get? id = none ∧ ∃ after, (apply s c).get? id = some after
  /-- No other handle comes to denote a node. -/
  unused : ∀ id after, s.get? id = none → (apply s c).get? id = some after →
    ∃ parent name value t, c = insertOrGetChild parent name value ∧
      s.insertOrGetChild parent name value = .ok (t, id, true)

theorem Updates.refl (s : Store) (c : Change) (id : NodeId) (n : Node) : Updates s c id n n :=
  ⟨rfl, .inl rfl, .inl rfl, .inl rfl, .inl rfl⟩

theorem not_removes {c : Change} (hc : ∀ parent name, c ≠ deleteChild parent name) (id : NodeId) :
    ¬ Removes s c id := by
  rintro ⟨parent, name, _, rfl, _, _⟩
  exact hc parent name rfl

/-- A change that leaves the store as it is, and creates and deletes nothing, keeps every handle. -/
theorem preservesHandles_of_apply_eq {c : Change} (happly : apply s c = s)
    (hremoves : ∀ id, ¬ Removes s c id)
    (hcreates : ∀ parent name value id t, c = insertOrGetChild parent name value →
      s.insertOrGetChild parent name value ≠ .ok (t, id, true)) : PreservesHandles s c where
  kept := by
    intro id before hid _
    exact ⟨before, by rw [happly, hid], .refl s c id before⟩
  removed := fun id hid => absurd hid (hremoves id)
  created := by
    intro parent name value id t hc hok
    exact absurd hok (hcreates parent name value id t hc)
  unused := by
    intro id after hid hafter
    rw [happly, hid] at hafter
    cases hafter

theorem preservesHandles_insertOrGetChild (h : Coherent s) (parent : NodeId)
    (name value : String) : PreservesHandles s (insertOrGetChild parent name value) := by
  have hremoves := not_removes (s := s) (c := insertOrGetChild parent name value)
    fun _ _ heq => by cases heq
  rcases h.insertOrGetChild_cases parent name value with
    ⟨id, _, _, hok⟩ | ⟨t, new, hok, _, _, ⟨hfresh, above, hp, ht⟩, _⟩ | ⟨fault, herr, _⟩
  · refine preservesHandles_of_apply_eq (by rw [apply, hok, orKeep]) hremoves ?_
    rintro _ _ _ _ _ ⟨⟩ hok'
    rw [hok] at hok'
    cases hok'
  · have happly : apply s (insertOrGetChild parent name value) = t := by rw [apply, hok, orKeep]
    constructor
    · intro id before hid _
      have hne : id ≠ new := by
        rintro rfl
        rw [hfresh] at hid
        cases hid
      rw [happly, ht, if_neg hne]
      by_cases hparent : id = parent
      · subst hparent
        rw [hp] at hid
        cases hid
        exact ⟨_, if_pos rfl, rfl, .inl rfl, .inl rfl, .inl rfl,
          .inr (.inl ⟨name, value, new, rfl, hfresh, rfl⟩)⟩
      · exact ⟨before, by rw [if_neg hparent, hid], .refl _ _ _ _⟩
    · exact fun id hid => absurd hid (hremoves id)
    · rintro _ _ _ id u ⟨⟩ hok'
      rw [hok] at hok'
      cases hok'
      exact ⟨hfresh, _, by rw [happly, ht, if_pos rfl]⟩
    · intro id after hid hafter
      rw [happly, ht] at hafter
      by_cases hnew : id = new
      · exact ⟨parent, name, value, t, rfl, hnew ▸ hok⟩
      · have hparent : id ≠ parent := by
          rintro rfl
          rw [hp] at hid
          cases hid
        rw [if_neg hnew, if_neg hparent, hid] at hafter
        cases hafter
  · refine preservesHandles_of_apply_eq (by rw [apply, herr, orKeep]) hremoves ?_
    rintro _ _ _ _ _ ⟨⟩ hok'
    rw [herr] at hok'
    cases hok'

/-- A change that neither creates nor deletes is told by what it makes of each node. -/
theorem preservesHandles_of_map {c : Change} {f : NodeId → Node → Node}
    (hdeletes : ∀ parent name, c ≠ deleteChild parent name)
    (hcreates : ∀ parent name value, c ≠ insertOrGetChild parent name value)
    (happly : ∀ id, (apply s c).get? id = (s.get? id).map (f id))
    (hf : ∀ id n, s.get? id = some n → Updates s c id n (f id n)) : PreservesHandles s c where
  kept := by
    intro id before hid _
    exact ⟨f id before, by rw [happly, hid, Option.map_some], hf id before hid⟩
  removed := fun id hid => absurd hid (not_removes hdeletes id)
  created := by
    intro parent name value _ _ hc
    exact absurd hc (hcreates parent name value)
  unused := by
    intro id after hid hafter
    rw [happly, hid] at hafter
    cases hafter

theorem preservesHandles_setValue (id : NodeId) (value : String) :
    PreservesHandles s (setValue id value) := by
  cases hok : s.setValue id value with
  | error fault =>
    exact preservesHandles_of_apply_eq (by rw [apply, hok, orKeep])
      (not_removes fun _ _ heq => by cases heq) (fun _ _ _ _ _ heq => by cases heq)
  | ok t =>
    refine preservesHandles_of_map (fun _ _ heq => by cases heq) (fun _ _ _ heq => by cases heq)
      (fun j => by rw [apply, hok, orKeep]; exact get?_setValue hok j) fun j n _ => ?_
    split
    · next hj => exact ⟨rfl, .inr (by rw [hj]), .inl rfl, .inl rfl, .inl rfl⟩
    · exact .refl _ _ _ _

theorem preservesHandles_renameChild (h : Coherent s) (parent : NodeId)
    (oldName newName : String) : PreservesHandles s (renameChild parent oldName newName) := by
  have hdeletes := not_removes (s := s) (c := renameChild parent oldName newName)
    fun _ _ heq => by cases heq
  rcases h.renameChild_cases parent oldName newName with
    ⟨herr, _⟩ | ⟨accepted, hok⟩ | ⟨above, target, t, hr, _, hok, hrenamed, _⟩
  · exact preservesHandles_of_apply_eq (by rw [apply, herr, orKeep]) hdeletes
      (fun _ _ _ _ _ heq => by cases heq)
  · exact preservesHandles_of_apply_eq (by rw [apply, hok, orKeep]) hdeletes
      (fun _ _ _ _ _ heq => by cases heq)
  · classical
    obtain hchild : s.IsChild parent oldName target := hr.child
    refine preservesHandles_of_map
      (f := fun j n => if s.Below target j then renamedNode target above.length newName j n else n)
      (fun _ _ heq => by cases heq) (fun _ _ _ heq => by cases heq) ?_ ?_
    · intro j
      rw [apply, hok, orKeep]
      by_cases hb : s.Below target j
      · simp only [hrenamed.moved j hb, if_pos hb]
      · simp only [hrenamed.kept j hb, if_neg hb, Option.map_id']
    · intro j n hn
      split
      · next hb =>
        refine ⟨rfl, .inl rfl, ?_, .inr ⟨parent, oldName, newName, target, rfl, hchild, hb⟩,
          .inl rfl⟩
        by_cases hj : j = target
        · subst hj
          obtain ⟨p, m, _, _, hm, rfl⟩ := id hchild
          rw [hn] at hm
          cases hm
          exact .inr ⟨parent, by rw [renamedNode, if_pos rfl], hchild⟩
        · exact .inl (if_neg hj)
      · exact .refl _ _ _ _

theorem preservesHandles_deleteChild (h : Coherent s) (parent : NodeId) (name : String) :
    PreservesHandles s (deleteChild parent name) := by
  rcases h.deleteChild_cases parent name with
    ⟨hnone, hok⟩ | ⟨target, t, paths, hchild, hok, _, ⟨_, hgone, hkept⟩, _⟩
  · refine preservesHandles_of_apply_eq (by rw [apply, hok]) ?_
      (fun _ _ _ _ _ heq => by cases heq)
    rintro id ⟨_, _, c, ⟨⟩, hc, _⟩
    exact h.child?_eq_none_iff.mp hnone c hc
  · have happly : apply s (deleteChild parent name) = t := by rw [apply, hok]
    have htarget : s.IsChild parent name target := h.child?_iff_isChild.mp hchild
    constructor
    · intro id before hid hremoves
      have hb : ¬ s.Below target id := fun hb => hremoves ⟨parent, name, target, rfl, htarget, hb⟩
      rw [happly, hkept id hb, hid]
      refine ⟨_, rfl, ?_⟩
      dsimp only
      split
      · next hparent =>
        exact ⟨rfl, .inl rfl, .inl rfl, .inl rfl,
          .inr (.inr ⟨name, target, by rw [hparent], hparent ▸ htarget, rfl⟩)⟩
      · exact .refl _ _ _ _
    · rintro id ⟨_, _, c, ⟨⟩, hc, hb⟩
      rw [happly]
      rw [h.child?_iff_isChild.mpr hc] at hchild
      cases hchild
      exact hgone id hb
    · intro _ _ _ _ _ heq
      cases heq
    · intro id after hid hafter
      rw [happly] at hafter
      by_cases hb : s.Below target id
      · rw [hgone id hb] at hafter
        cases hafter
      · rw [hkept id hb, hid] at hafter
        cases hafter

theorem preservesHandles (h : Coherent s) {c : Change} (hc : c.isSingle = true) :
    PreservesHandles s c := by
  cases c with
  | insertOrGetChild parent name value =>
    exact preservesHandles_insertOrGetChild h parent name value
  | setValue id value => exact preservesHandles_setValue id value
  | deleteChild parent name => exact preservesHandles_deleteChild h parent name
  | renameChild parent oldName newName =>
    exact preservesHandles_renameChild h parent oldName newName
  | ensureRuleSubtree => cases hc
  | ensureDefaultRuleset ruleset => cases hc
  | load records => cases hc
  | merge records => cases hc

end Change

/-- After any changes, one more change to a node leaves every handle its node, those of the
removed nodes apart, and a new node has a handle that was of no node. -/
theorem preservesHandles_run (changes : List Change) {c : Change} (hc : c.isSingle = true) :
    Change.PreservesHandles (Change.run changes) c :=
  Change.preservesHandles (Change.coherent_run changes) hc

/-- Three slots are free, those of a node and its children. The next node takes one of them, and the
handle of a node outside of the deleted subtree denotes that node as before. -/
theorem preservesHandles_run_freed_slots :
    let s := Change.run [.insertOrGetChild root "a" "", .insertOrGetChild ⟨1⟩ "b" "1",
      .insertOrGetChild ⟨1⟩ "c" "2", .insertOrGetChild root "d" "3", .deleteChild root "a"]
    let c := Change.insertOrGetChild ⟨4⟩ "e" "5"
    s.free = [3, 2, 1] ∧ ∃ t, s.insertOrGetChild ⟨4⟩ "e" "5" = .ok (t, ⟨3⟩, true) ∧
      s.get? ⟨3⟩ = none ∧ (∃ new, t.get? ⟨3⟩ = some new) ∧
      ∃ d, t.get? ⟨4⟩ = some d ∧ Change.Updates s c ⟨4⟩ ⟨"d", "3", "d", some root, []⟩ d := by
  intro s c
  have hd : s.get? ⟨4⟩ = some ⟨"d", "3", "d", some root, []⟩ := by decide +kernel
  obtain ⟨t, hok⟩ : ∃ t, s.insertOrGetChild ⟨4⟩ "e" "5" = .ok (t, ⟨3⟩, true) := ⟨_, rfl⟩
  have happly : Change.apply s c = t := by rw [Change.apply, hok, Change.orKeep]
  have hpreserves : Change.PreservesHandles s c := preservesHandles_run _ rfl
  obtain ⟨hfresh, hnew⟩ := hpreserves.created _ _ _ _ _ rfl hok
  have hremoves : ¬ Change.Removes s (.insertOrGetChild ⟨4⟩ "e" "5") ⟨4⟩ :=
    Change.not_removes (fun _ _ heq => by cases heq) _
  have hkept := hpreserves.kept ⟨4⟩ _ hd hremoves
  rw [happly] at hnew hkept
  exact ⟨by decide +kernel, t, hok, hfresh, hnew, hkept⟩

end TreeDatabase
