import TreeDatabase.Proofs.Operation.Candidates
import TreeDatabase.Proofs.Operation.Node

/-!
# Writes and their plans

A write is a sequence of writes of single nodes, and these are the ones that were planned for the
store as it was at the beginning.
-/

namespace TreeDatabase

open Store

namespace Statement

/-- Part of a write has been done, as a sequence of writes of single nodes, each with its line; the
store is as before unless it counts as changed. -/
structure Progresses (p q : Progress) (ws : List NodeWrite) : Prop where
  writes : p.store.Writes ws q.store
  changed : q.changed = false → p.changed = false ∧ q.store = p.store
  counts : p.Counts q ws.length

namespace Progresses

variable {p q r : Progress} {ws ws' : List NodeWrite}

theorem refl (p : Progress) : Progresses p p [] := ⟨.refl, fun h => ⟨h, rfl⟩, rfl, rfl⟩

theorem trans (h : Progresses p q ws) (h' : Progresses q r ws') : Progresses p r (ws ++ ws') where
  writes := h.writes.trans h'.writes
  changed := by
    intro hfalse
    obtain ⟨hq, hrq⟩ := h'.changed hfalse
    obtain ⟨hp, hqp⟩ := h.changed hq
    exact ⟨hp, hrq.trans hqp⟩
  counts := by
    constructor
    · rw [h'.counts.lines, h.counts.lines, List.length_append, Nat.add_assoc]
    · rw [h'.counts.count, h.counts.count, List.length_append, Nat.add_assoc]

end Progresses

theorem writeNode_progresses {p : Progress} (h : p.store.Coherent) {parent : NodeId} {above : Node}
    {name : String} (hp : p.store.get? parent = some above) (hname : isNodeName name = true)
    (value : Option String) : ∃ q id, writeNode p parent name value = .ok (q, id) ∧
      q.store.Coherent ∧ Progresses p q [⟨parent, name, value, id⟩] ∧
      p.store.Wrote parent name value q.store id := by
  obtain ⟨q, id, hq, hcoherent, hwrote, hchanged, hcounts⟩ := writeNode_spec h hp hname value
  exact ⟨q, id, hq, hcoherent, ⟨.single h hwrote hcoherent, hchanged, hcounts⟩, hwrote⟩

/-- The value that a child assignment gives: none when it is blank. -/
def givenValue (child : String × String) : Option String :=
  if child.2 = "" then none else some child.2

theorem writeChildren_progresses {target : NodeId} {children : List (String × String)}
    (hnames : ∀ child ∈ children, isNodeName child.1 = true) {p : Progress}
    (h : p.store.Coherent) {n : Node} (hn : p.store.get? target = some n) :
    ∃ q ws, children.foldlM (writeChild target) p = .ok q ∧ q.store.Coherent ∧
      Progresses p q ws ∧
      ws.map (·.request) = children.map fun child => (target, child.1, givenValue child) := by
  induction children generalizing p n with
  | nil => exact ⟨p, [], rfl, h, .refl p, rfl⟩
  | cons child children ih =>
    obtain ⟨q, id, hq, hcoherent, hprogress, _⟩ := writeNode_progresses h hn
      (hnames child List.mem_cons_self) (givenValue child)
    obtain ⟨m, hm, _⟩ := hprogress.writes.kept hn
    obtain ⟨r, ws, hr, hcoherent', hprogress', hrequests⟩ :=
      ih (fun c hc => hnames c (List.mem_cons_of_mem _ hc)) hcoherent hm
    refine ⟨r, _, ?_, hcoherent', hprogress.trans hprogress', ?_⟩
    · rw [List.foldlM_cons]
      have hchild : writeChild target p child = .ok q := by
        rw [writeChild, show (if child.2 = "" then none else some child.2) = givenValue child from
          rfl, hq]
        rfl
      rw [hchild]
      exact hr
    · rw [List.map_append, hrequests]
      rfl

/-- Writing a target and its children, as far as it can be told without the plan. -/
theorem writeTarget_spec {s : Statement} (hnames : ∀ child ∈ s.children, isNodeName child.1 = true)
    {p : Progress} (h : p.store.Coherent) {parent : NodeId} {above : Node}
    (hp : p.store.get? parent = some above) {name : String} (hname : isNodeName name = true) :
    ∃ q id ws, s.writeTarget parent p name = .ok q ∧
      Progresses p q (⟨parent, name, s.selectedValue, id⟩ :: ws) ∧
      ws.map (·.request) = s.children.map fun child => (id, child.1, givenValue child) := by
  obtain ⟨q, id, hq, hcoherent, hprogress, hwrote⟩ :=
    writeNode_progresses h hp hname s.selectedValue
  obtain ⟨n, hn, _⟩ := hwrote.written h
  obtain ⟨r, ws, hr, _, hprogress', hrequests⟩ := writeChildren_progresses hnames hcoherent hn
  refine ⟨r, id, ws, ?_, hprogress.trans hprogress', hrequests⟩
  rw [writeTarget, hq]
  exact hr

/-! ## Targets -/

/-- The names that a write writes, each with the parent below which it does. -/
def places (s : Statement) (store : Store) (parents : List NodeId) : List (NodeId × String) :=
  parents.flatMap fun parent => (s.writtenNames store parent).map (parent, ·)

/-- Writes are those of targets one after the other, each followed by its children. -/
inductive Lists (s : Statement) : List (NodeId × String) → List NodeWrite → Prop
  | nil : Lists s [] []
  | cons {parent id : NodeId} {name : String} {places : List (NodeId × String)}
      {children ws : List NodeWrite}
      (requests : children.map (·.request) =
        s.children.map fun child => (id, child.1, givenValue child))
      (rest : Lists s places ws) :
      Lists s ((parent, name) :: places)
        (⟨parent, name, s.selectedValue, id⟩ :: (children ++ ws))

theorem Lists.append {s : Statement} {places places' : List (NodeId × String)}
    {ws ws' : List NodeWrite} (h : s.Lists places ws) (h' : s.Lists places' ws') :
    s.Lists (places ++ places') (ws ++ ws') := by
  induction h with
  | nil => exact h'
  | cons requests _ ih =>
    rw [List.cons_append, List.cons_append, List.append_assoc]
    exact .cons requests ih

theorem writeNames_progresses {s : Statement}
    (hchildren : ∀ child ∈ s.children, isNodeName child.1 = true) {parent : NodeId}
    {names : List String} (hnames : ∀ name ∈ names, isNodeName name = true) {p : Progress}
    (h : p.store.Coherent) {above : Node} (hp : p.store.get? parent = some above) :
    ∃ q ws, names.foldlM (s.writeTarget parent) p = .ok q ∧ Progresses p q ws ∧
      s.Lists (names.map (parent, ·)) ws := by
  induction names generalizing p above with
  | nil => exact ⟨p, [], rfl, .refl p, .nil⟩
  | cons name names ih =>
    obtain ⟨q, id, children, hq, hprogress, hrequests⟩ :=
      writeTarget_spec hchildren h hp (hnames name List.mem_cons_self)
    obtain ⟨above', hp', _⟩ := hprogress.writes.kept hp
    obtain ⟨r, ws, hr, hprogress', hlists⟩ :=
      ih (fun n hn => hnames n (List.mem_cons_of_mem _ hn)) (hprogress.writes.coherent h) hp'
    refine ⟨r, _, ?_, hprogress.trans hprogress', .cons hrequests hlists⟩
    rw [List.foldlM_cons, hq]
    exact hr

theorem writeBelow_progresses {s : Statement}
    (hchildren : ∀ child ∈ s.children, isNodeName child.1 = true) {parent : NodeId} {p : Progress}
    (h : p.store.Coherent) {above : Node} (hp : p.store.get? parent = some above)
    (hnames : ∀ name ∈ s.writtenNames p.store parent, isNodeName name = true) :
    ∃ q ws, s.writeBelow p parent = .ok q ∧ Progresses p q ws ∧
      s.Lists ((s.writtenNames p.store parent).map (parent, ·)) ws :=
  writeNames_progresses hchildren hnames h hp

/-- The names that a write writes are valid, and do not depend on the store unless the wildcard is
selected. -/
structure Writable (s : Statement) (store : Store) (parents : List NodeId) : Prop where
  children : ∀ child ∈ s.children, isNodeName child.1 = true
  live : ∀ parent ∈ parents, ∃ above, store.get? parent = some above
  names : ∀ parent ∈ parents, ∀ name ∈ s.writtenNames store parent, isNodeName name = true
  /-- The wildcard is looked up below one parent only. -/
  single : s.selectedName = Vocabulary.wildcard → parents.length ≤ 1

/-- A write below parents that are there is not interrupted, and writes the names that it selects
in the store as it was at the beginning. -/
theorem writeParents_progresses {s : Statement} {store : Store} (h : store.Coherent)
    {parents : List NodeId} (hw : s.Writable store parents) {p : Progress}
    (hp : p.store = store) : ∃ q ws, parents.foldlM s.writeBelow p = .ok q ∧ Progresses p q ws ∧
      s.Lists (s.places store parents) ws := by
  subst hp
  by_cases hwild : s.selectedName = Vocabulary.wildcard
  · have hlen := hw.single hwild
    match parents, hw, hlen with
    | [], _, _ => exact ⟨p, [], rfl, .refl p, .nil⟩
    | [parent], hw, _ =>
      obtain ⟨above, habove⟩ := hw.live parent List.mem_cons_self
      obtain ⟨q, ws, hq, hprogress, hlists⟩ :=
        writeBelow_progresses hw.children h habove (hw.names parent List.mem_cons_self)
      refine ⟨q, ws, ?_, hprogress, ?_⟩
      · rw [List.foldlM_cons, hq]
        rfl
      · rwa [places, List.flatMap_singleton]
  · have hwritten : ∀ t parent, s.writtenNames t parent = s.writtenNames p.store parent := by
      intro t parent
      rw [writtenNames, writtenNames, if_neg hwild, if_neg hwild]
    -- the names stay the same while the store changes
    induction parents generalizing p with
    | nil => exact ⟨p, [], rfl, .refl p, .nil⟩
    | cons parent parents ih =>
      obtain ⟨above, habove⟩ := hw.live parent List.mem_cons_self
      obtain ⟨q, ws, hq, hprogress, hlists⟩ :=
        writeBelow_progresses hw.children h habove (hw.names parent List.mem_cons_self)
      have hw' : s.Writable q.store parents := by
        refine ⟨hw.children, fun c hc => ?_, fun c hc => ?_, fun he => absurd he hwild⟩
        · obtain ⟨n, hn⟩ := hw.live c (List.mem_cons_of_mem _ hc)
          obtain ⟨m, hm, _⟩ := hprogress.writes.kept hn
          exact ⟨m, hm⟩
        · rw [hwritten]
          exact hw.names c (List.mem_cons_of_mem _ hc)
      obtain ⟨r, ws', hr, hprogress', hlists'⟩ := ih (hprogress.writes.coherent h) hw'
        fun t c => (hwritten t c).trans (hwritten q.store c).symm
      refine ⟨r, ws ++ ws', ?_, hprogress.trans hprogress', ?_⟩
      · rw [List.foldlM_cons, hq]
        exact hr
      · rw [places, List.flatMap_cons]
        rw [places, funext (hwritten q.store)] at hlists'
        exact hlists.append hlists'

/-! ## What is written -/

/-- A write is that of a selected name below one of the parents. -/
structure IsTarget (s : Statement) (store : Store) (parents : List NodeId) (w : NodeWrite) :
    Prop where
  parent : w.parent ∈ parents
  name : w.name ∈ s.writtenNames store w.parent
  value : w.value = s.selectedValue

/-- Every write is that of a target or of a child of a target that is written too. -/
def Requested (s : Statement) (store : Store) (parents : List NodeId) (ws : List NodeWrite) :
    Prop :=
  ∀ w ∈ ws, s.IsTarget store parents w ∨
    ∃ w' ∈ ws, s.IsTarget store parents w' ∧ w.parent = w'.id ∧
      ∃ child ∈ s.children, w.name = child.1 ∧ w.value = givenValue child

theorem mem_places_iff {s : Statement} {store : Store} {parents : List NodeId}
    {place : NodeId × String} : place ∈ s.places store parents ↔
      place.1 ∈ parents ∧ place.2 ∈ s.writtenNames store place.1 := by
  obtain ⟨parent, name⟩ := place
  simp [places]

theorem Lists.requested {s : Statement} {store : Store} {parents : List NodeId}
    {places : List (NodeId × String)} {ws : List NodeWrite} (h : s.Lists places ws)
    (hplaces : places ⊆ s.places store parents) : s.Requested store parents ws := by
  induction h with
  | nil => exact fun _ hw => absurd hw List.not_mem_nil
  | @cons parent id name places children ws requests _ ih =>
    obtain ⟨hparent, hname⟩ := mem_places_iff.mp (hplaces List.mem_cons_self)
    have htarget : s.IsTarget store parents ⟨parent, name, s.selectedValue, id⟩ :=
      ⟨hparent, hname, rfl⟩
    intro w hw
    rcases List.mem_cons.mp hw with rfl | hw
    · exact .inl htarget
    · rcases List.mem_append.mp hw with hw | hw
      · have hmem : w.request ∈ s.children.map fun child => (id, child.1, givenValue child) :=
          requests ▸ List.mem_map_of_mem hw
        obtain ⟨child, hchild, heq⟩ := List.mem_map.mp hmem
        rw [NodeWrite.request, Prod.mk.injEq, Prod.mk.injEq] at heq
        exact .inr ⟨_, List.mem_cons_self, htarget, heq.1.symm, child, hchild, heq.2.1.symm,
          heq.2.2.symm⟩
      · rcases ih (fun _ hp => hplaces (List.mem_cons_of_mem _ hp)) w hw with
          ht | ⟨w', hw', hchild⟩
        · exact .inl ht
        · exact .inr ⟨w', List.mem_cons_of_mem _ (List.mem_append_right _ hw'), hchild⟩

/-! ## Plans -/

/-- The writes of a target and its children are those that were planned, whichever node the target
turned out to be. -/
theorem pending_target {s : Statement} {store : Store} {parent id : NodeId} {name : String}
    {ws : List NodeWrite}
    (hid : store.child? parent name = if (store.get? id).isSome then some id else none)
    (hrequests : ws.map (·.request) = s.children.map fun child => (id, child.1, givenValue child)) :
    ((⟨parent, name, s.selectedValue, id⟩ : NodeWrite) :: ws).map store.pending =
      s.plannedTarget store parent name := by
  have hchildren : ws.map store.pending =
      s.children.map (plannedChild store (store.child? parent name)) := by
    have hsplit : ws.map store.pending = (ws.map (·.request)).map store.foreseen := by
      rw [List.map_map]
      rfl
    rw [hsplit, hrequests, List.map_map]
    refine List.map_congr_left fun child _ => ?_
    have hexisting : store.child? id child.1 =
        (store.child? parent name).bind fun j => store.child? j child.1 := by
      rw [hid]
      cases hn : store.get? id with
      | none => rw [child?, hn]; rfl
      | some n => rfl
    simp only [Function.comp, foreseen, plannedChild, ← hexisting, givenValue]
    split <;> rfl
  rw [List.map_cons, hchildren, plannedTarget]
  congr 1
  rw [pending, NodeWrite.request, foreseen]
  cases s.selectedValue <;> rfl

/-- The writes of a statement are those that were planned for the store as it was at the
beginning. -/
theorem Lists.pending {s : Statement} {store : Store} {places : List (NodeId × String)}
    {ws : List NodeWrite} (hl : s.Lists places ws)
    (hexisting : ∀ w ∈ ws, store.child? w.parent w.name =
      if (store.get? w.id).isSome then some w.id else none) :
    ws.map store.pending = places.flatMap fun place => s.plannedTarget store place.1 place.2 := by
  induction hl with
  | nil => rfl
  | @cons parent id name places children ws requests _ ih =>
    have htarget := pending_target (hexisting _ List.mem_cons_self) requests
    rw [List.flatMap_cons, ← htarget, ← ih fun w hw =>
      hexisting w (List.mem_cons_of_mem _ (List.mem_append_right _ hw))]
    simp

theorem planWrites_eq (s : Statement) (store : Store) (parents : List NodeId) :
    s.planWrites store parents =
      (s.places store parents).flatMap fun place => s.plannedTarget store place.1 place.2 := by
  simp only [planWrites, places, List.flatMap_assoc, List.flatMap_map]

/-! ## The whole write -/

/-- The names that a write writes can name nodes, unless it selects one that cannot. -/
theorem isNodeName_writtenNames {s : Statement} {store : Store} (h : store.Coherent)
    (hname : s.selectedName = Vocabulary.wildcard ∨ isNodeName s.selectedName = true)
    (parent : NodeId) : ∀ name ∈ s.writtenNames store parent, isNodeName name = true := by
  intro name hmem
  rw [writtenNames] at hmem
  split at hmem
  · next hw =>
    obtain ⟨n, hn, rfl⟩ := List.mem_map.mp hmem
    obtain ⟨id, hid, hn⟩ := List.mem_filterMap.mp hn
    rw [targets, if_pos (by simp [selectsAll, hw])] at hid
    obtain ⟨p, hp, hchild⟩ := mem_children_iff.mp (List.mem_filter.mp hid).1
    exact h.tree.name_of_mem_children hp hchild hn
  · next hw =>
    rw [List.mem_singleton.mp hmem]
    exact hname.resolve_left hw

theorem live_of_mem_candidateParents {s : Statement} {store : Store} (h : store.Coherent) :
    ∀ parent ∈ (s.candidateParents store).map Prod.snd,
      ∃ above, store.get? parent = some above := by
  intro parent hparent
  obtain ⟨entry, hentry, rfl⟩ := List.mem_map.mp hparent
  obtain ⟨n, hn, _⟩ := live_of_mem_parentNodes h (mem_candidateParents_iff.mp hentry).1
  exact ⟨n, hn⟩

theorem Admitted.writable {s : Statement} (ha : s.Admitted) {store : Store} (h : store.Coherent) :
    s.Writable store ((s.candidateParents store).map Prod.snd) where
  children := ha.isNodeName_child
  live := live_of_mem_candidateParents h
  names parent _ := isNodeName_writtenNames h (.inr ha.isNodeName_selectedName) parent
  single := by
    intro hw
    rw [List.length_map]
    exact ha.length_candidateParents_le_one hw store

/-- A write is refused for what it would break, or the nodes that it writes break no rule. It is
never interrupted. -/
theorem Admitted.write_cases {s : Statement} (ha : s.Admitted) {store : Store}
    (h : store.Coherent) :
    (∃ violations, s.write store = .ok (store, s.refuse violations)) ∨
    ∃ t response ws, s.write store = .ok (t, response) ∧ t.Coherent ∧ store.Writes ws t ∧
      s.Requested store ((s.candidateParents store).map Prod.snd) ws ∧
      Ruleset.writeViolations store (ws.map store.pending) = [] ∧
      (response.changed = false → t = store) := by
  rw [write]
  split
  · exact .inl ⟨_, rfl⟩
  · next hnone =>
    right
    obtain ⟨q, ws, hq, hprogress, hlists⟩ :=
      writeParents_progresses h (ha.writable h) (p := { store }) rfl
    have hpending := hlists.pending fun w hw => hprogress.writes.child?_eq h hw
    refine ⟨q.store, _, ws, by rw [hq]; rfl, hprogress.writes.coherent h, hprogress.writes,
      hlists.requested (List.Subset.refl _), ?_, ?_⟩
    · rw [hpending, ← planWrites_eq]
      exact not_not.mp hnone
    · intro hfalse
      exact (hprogress.changed hfalse).2

end Statement

end TreeDatabase
