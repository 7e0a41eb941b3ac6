import TreeDatabase.Proofs.Operation.Effect

/-!
# Writes of what is there already

Writes of different nodes leave all that they asked for there. To ask again for what is there
changes nothing, and the progress of the write says so.
-/

namespace TreeDatabase

open Store

namespace Store

variable {s t : Store} {ws : List NodeWrite}

/-- What is asked for is there: a child of the name, and of the value if one is given. -/
def Settled (t : Store) (request : NodeId × String × Option String) : Prop :=
  ∃ v, t.valueOf? request.1 request.2.1 = some v ∧ request.2.2.getD v = v

theorem Writes.settled (hw : s.Writes ws t) (h : Coherent s) (hids : (ws.map (·.id)).Nodup)
    {w : NodeWrite} (hmem : w ∈ ws) : t.Settled w.request := by
  refine ⟨_, hw.valueOf?_of_nodup h hids hmem, ?_⟩
  rw [pending, NodeWrite.request, foreseen]
  cases w.value <;> rfl

/-- Getting a child that is there, or inserting it, changes nothing. -/
theorem Coherent.insertOrGetChild_of_child? (h : Coherent s) {parent id : NodeId} {name : String}
    (hc : s.child? parent name = some id) (value : String) :
    s.insertOrGetChild parent name value = .ok (s, id, false) := by
  obtain ⟨above, n, habove, hmem, hn, rfl⟩ := h.child?_iff.mp hc
  rw [Store.insertOrGetChild, h.tree.name_of_mem_children habove hmem hn, hc]
  rfl

end Store

/-! ## Nothing changes -/

/-- Nothing has been changed, whatever has been counted and listed. -/
structure Progress.Idle (p q : Progress) : Prop where
  store : q.store = p.store
  changed : q.changed = p.changed

namespace Progress.Idle

theorem refl (p : Progress) : p.Idle p := ⟨rfl, rfl⟩

theorem trans {p q r : Progress} (h : p.Idle q) (h' : q.Idle r) : p.Idle r :=
  ⟨h'.store.trans h.store, h'.changed.trans h.changed⟩

/-- Steps that change nothing of the store that they begin with change nothing together. -/
theorem foldlM {α : Type} {f : Progress → α → Except Interruption Progress} {items : List α}
    {p : Progress}
    (hstep : ∀ q, q.store = p.store → ∀ a ∈ items, ∃ r, f q a = .ok r ∧ q.Idle r) :
    ∃ q, items.foldlM f p = .ok q ∧ p.Idle q := by
  induction items generalizing p with
  | nil => exact ⟨p, rfl, .refl p⟩
  | cons a items ih =>
    obtain ⟨q, hq, hidle⟩ := hstep p rfl a List.mem_cons_self
    obtain ⟨r, hr, hidle'⟩ := ih fun u hu b hb =>
      hstep u (hu.trans hidle.store) b (List.mem_cons_of_mem _ hb)
    refine ⟨r, ?_, hidle.trans hidle'⟩
    rw [List.foldlM_cons, hq]
    exact hr

end Progress.Idle

namespace Statement

variable {s : Statement} {store t : Store} {ws : List NodeWrite}

theorem writeNode_of_settled {p : Progress} (h : p.store.Coherent) {parent : NodeId}
    {name : String} {value : Option String} (hs : p.store.Settled (parent, name, value)) :
    ∃ q id, writeNode p parent name value = .ok (q, id) ∧ p.Idle q ∧
      p.store.child? parent name = some id := by
  obtain ⟨v, hvalue, hsame⟩ := hs
  obtain ⟨n, hfound, rfl⟩ := Option.map_eq_some_iff.mp hvalue
  obtain ⟨id, hchild, hn⟩ := Option.bind_eq_some_iff.mp hfound
  have hnone : value.any (· != n.value) = false := by
    cases value with
    | none => rfl
    | some given => simpa using hsame
  have hok := h.insertOrGetChild_of_child? hchild (value.getD "")
  obtain ⟨q, hq, hstore, hchanged, _⟩ := writeNode_of_same hok hn hnone
  exact ⟨q, id, hq, ⟨hstore, hchanged.trans (Bool.or_false _)⟩, hchild⟩

/-- What was asked for at a place is there, with the children of the target. -/
def SettledAt (s : Statement) (store : Store) (place : NodeId × String) : Prop :=
  ∀ request ∈ s.requestsAt store place, store.Settled request

theorem writeTarget_of_settled {p : Progress} (h : p.store.Coherent) {parent : NodeId}
    {name : String} (hs : s.SettledAt p.store (parent, name)) :
    ∃ q, s.writeTarget parent p name = .ok q ∧ p.Idle q := by
  obtain ⟨q, target, hq, hidle, hchild⟩ := writeNode_of_settled h (hs _ List.mem_cons_self)
  have htarget : nodeAt p.store (parent, name) = target := by
    rw [nodeAt, hchild]
    rfl
  have hchildren : ∀ u, u.store = q.store → ∀ child ∈ s.children,
      ∃ r, writeChild target u child = .ok r ∧ u.Idle r := by
    intro u hu child hmem
    have hstore := hu.trans hidle.store
    have hsettled : u.store.Settled (target, child.1, givenValue child) := by
      rw [hstore, ← htarget]
      exact hs _ (List.mem_cons_of_mem _ (List.mem_map_of_mem hmem))
    obtain ⟨r, _, hr, hidle', _⟩ := writeNode_of_settled (hstore ▸ h) hsettled
    refine ⟨r, ?_, hidle'⟩
    rw [writeChild, ← givenValue, hr]
    rfl
  obtain ⟨r, hr, hidle'⟩ := Progress.Idle.foldlM hchildren
  refine ⟨r, ?_, hidle.trans hidle'⟩
  rw [writeTarget, hq]
  exact hr

/-- A write below parents where all that it asks for is there changes nothing. -/
theorem writeParents_of_settled (h : store.Coherent) {parents : List NodeId}
    (hs : ∀ place ∈ s.places store parents, s.SettledAt store place) {p : Progress}
    (hp : p.store = store) : ∃ q, parents.foldlM s.writeBelow p = .ok q ∧ p.Idle q := by
  subst hp
  refine Progress.Idle.foldlM fun q hq parent hparent => ?_
  refine Progress.Idle.foldlM fun r hr name hname => ?_
  have hstore := hr.trans hq
  rw [hq] at hname
  refine writeTarget_of_settled (hstore ▸ h) (hstore ▸ hs _ ?_)
  exact mem_places_iff.mpr ⟨hparent, hname⟩

/-- Where a write of different nodes has written, all that it asked for is there. -/
theorem Lists.settledAt {places : List (NodeId × String)} (hl : s.Lists places ws)
    (h : store.Coherent) (hw : store.Writes ws t) (hids : (ws.map (·.id)).Nodup)
    {place : NodeId × String} (hplace : place ∈ places) : s.SettledAt t place := by
  intro request hrequest
  have hmem : request ∈ ws.map (·.request) := by
    rw [hl.requests fun w hmem => hw.child?_of_mem hmem]
    exact List.mem_flatMap.mpr ⟨place, hplace, hrequest⟩
  obtain ⟨w, hw', rfl⟩ := List.mem_map.mp hmem
  exact hw.settled h hids hw'

end Statement

end TreeDatabase
