import Mathlib.Data.List.Forall2
import TreeDatabase.Operation.Rename
import TreeDatabase.Proofs.Operation.Candidates

/-!
# Renamings

A renaming that was admitted is never interrupted. It gives nodes its new name and leaves their
values and their places among the nodes as they are.
-/

namespace TreeDatabase

open Store

namespace Statement

/-- Every node is one of before, with its value, its parent and its children, and with its name or
the new one. -/
def Relabels (newName : String) (s t : Store) : Prop :=
  ∀ id m, t.get? id = some m → ∃ n, s.get? id = some n ∧ m.value = n.value ∧
    m.parent = n.parent ∧ m.children = n.children ∧ (m.name = n.name ∨ m.name = newName)

theorem Relabels.refl (newName : String) (s : Store) : Relabels newName s s :=
  fun _ m hm => ⟨m, hm, rfl, rfl, rfl, .inl rfl⟩

theorem Relabels.trans {newName : String} {s t u : Store} (h : Relabels newName s t)
    (h' : Relabels newName t u) : Relabels newName s u := by
  intro id m hm
  obtain ⟨k, hk, hvalue, hparent, hchildren, hname⟩ := h' id m hm
  obtain ⟨n, hn, hvalue', hparent', hchildren', hname'⟩ := h id k hk
  refine ⟨n, hn, hvalue.trans hvalue', hparent.trans hparent', hchildren.trans hchildren', ?_⟩
  rcases hname with hname | hname
  · exact hname'.imp hname.trans hname.trans
  · exact .inr hname

/-- Names lead to a node that led there before, but for some that are the new name now. -/
theorem Relabels.leads {newName : String} {s t : Store} (h : Relabels newName s t)
    {names : List String} {id : NodeId} (hl : t.Leads names id) :
    ∃ olds, s.Leads olds id ∧
      List.Forall₂ (fun name old => name = old ∨ name = newName) names olds := by
  induction hl with
  | root => exact ⟨[], .root, .nil⟩
  | child _ live member node ih =>
    obtain ⟨olds, hold, hnames⟩ := ih
    obtain ⟨n, hn, _, _, hchildren, _⟩ := h _ _ live
    obtain ⟨m, hm, _, _, _, hname⟩ := h _ _ node
    refine ⟨_, hold.child hn (hchildren ▸ member) hm, ?_⟩
    exact List.rel_append hnames (.cons hname .nil)

theorem relabels_of_renamed {newName : String} {s t : Store} {target : NodeId} {depth : Nat}
    (h : s.Renamed target depth newName t) : Relabels newName s t := by
  intro id m hm
  by_cases hb : s.Below target id
  · rw [h.moved id hb, Option.map_eq_some_iff] at hm
    obtain ⟨n, hn, rfl⟩ := hm
    refine ⟨n, hn, rfl, rfl, rfl, ?_⟩
    rw [renamedNode]
    split
    · exact .inr rfl
    · exact .inl rfl
  · rw [h.kept id hb] at hm
    exact ⟨m, hm, rfl, rfl, rfl, .inl rfl⟩

/-- Part of a renaming has been done; the store is as before unless it counts as changed. -/
structure Renames (newName : String) (p q : Progress) : Prop where
  coherent : q.store.Coherent
  nodes : Relabels newName p.store q.store
  changed : q.changed = false → p.changed = false ∧ q.store = p.store

namespace Renames

variable {newName : String} {p q r : Progress}

theorem of_store_eq (h : p.store.Coherent) (hstore : q.store = p.store)
    (hchanged : q.changed = false → p.changed = false) : Renames newName p q :=
  ⟨hstore ▸ h, hstore ▸ .refl newName _, fun hf => ⟨hchanged hf, hstore⟩⟩

theorem trans (h : Renames newName p q) (h' : Renames newName q r) : Renames newName p r := by
  refine ⟨h'.coherent, h.nodes.trans h'.nodes, ?_⟩
  intro hfalse
  obtain ⟨hq, hrq⟩ := h'.changed hfalse
  obtain ⟨hp, hqp⟩ := h.changed hq
  exact ⟨hp, hrq.trans hqp⟩

theorem foldlM {α : Type} {f : Progress → α → Except Interruption Progress}
    (hf : ∀ p a, p.store.Coherent → ∃ q, f p a = .ok q ∧ Renames newName p q) {items : List α}
    (h : p.store.Coherent) : ∃ q, items.foldlM f p = .ok q ∧ Renames newName p q := by
  induction items generalizing p with
  | nil => exact ⟨p, rfl, .of_store_eq h rfl id⟩
  | cons a items ih =>
    obtain ⟨q, hq, hstep⟩ := hf p a h
    obtain ⟨r, hr, hrest⟩ := ih hstep.coherent
    refine ⟨r, ?_, hstep.trans hrest⟩
    rw [List.foldlM_cons, hq]
    exact hr

end Renames

variable {s : Statement}

theorem renameTarget_of_not_passes {p : Progress} {target : NodeId} {n : Node}
    (hn : p.store.get? target = some n) (hpasses : p.store.passes s.filter target = false)
    (parent : NodeId) : s.renameTarget parent p target = .ok p := by
  rw [renameTarget, hn]
  dsimp only
  rw [hpasses]
  rfl

theorem renameTarget_of_accepted {p : Progress} {parent target : NodeId} {n : Node} {t : Store}
    (hn : p.store.get? target = some n) (hpasses : p.store.passes s.filter target = true)
    (hok : p.store.renameChild parent n.name s.newName = .ok (t, true)) :
    s.renameTarget parent p target = .ok
      ⟨t, p.lines ++ [renamedLine n.path (((t.get? target).map (·.path)).getD "")], p.count + 1,
        p.changed || n.name != s.newName⟩ := by
  rw [renameTarget, hn]
  dsimp only
  rw [hpasses, if_pos rfl, hok]
  rfl

theorem renameTarget_of_refused {p : Progress} {parent target : NodeId} {n : Node} {t : Store}
    (hn : p.store.get? target = some n) (hpasses : p.store.passes s.filter target = true)
    (hok : p.store.renameChild parent n.name s.newName = .ok (t, false)) :
    s.renameTarget parent p target = .ok
      ⟨t, p.lines ++ [refusedLine n.path s.newName], p.count, p.changed⟩ := by
  rw [renameTarget, hn]
  dsimp only
  rw [hpasses, if_pos rfl, hok]
  rfl

/-- What a renaming of a target makes of the store, when it is not refused as invalid. -/
theorem renameTarget_of_ok {p : Progress} {parent target : NodeId} {n : Node} {t : Store}
    {accepted : Bool} (hn : p.store.get? target = some n)
    (hpasses : p.store.passes s.filter target = true)
    (hok : p.store.renameChild parent n.name s.newName = .ok (t, accepted)) :
    ∃ q, s.renameTarget parent p target = .ok q ∧ q.store = t ∧
      q.changed = (p.changed || (accepted && n.name != s.newName)) := by
  cases accepted with
  | true => exact ⟨_, renameTarget_of_accepted hn hpasses hok, rfl, rfl⟩
  | false =>
    exact ⟨_, renameTarget_of_refused hn hpasses hok, rfl, (Bool.or_false _).symm⟩

theorem renameTarget_renames (hname : isNodeName s.newName = true) {p : Progress}
    (h : p.store.Coherent) (parent target : NodeId) :
    ∃ q, s.renameTarget parent p target = .ok q ∧ Renames s.newName p q := by
  cases hn : p.store.get? target with
  | none => exact ⟨p, by rw [renameTarget, hn], .of_store_eq h rfl id⟩
  | some n =>
    cases hpasses : p.store.passes s.filter target with
    | false => exact ⟨p, renameTarget_of_not_passes hn hpasses parent, .of_store_eq h rfl id⟩
    | true =>
      rcases h.renameChild_cases parent n.name s.newName with
        ⟨_, hno⟩ | ⟨accepted, hok⟩ | ⟨above, c, t, _, hdiffers, hok, hrenamed, ht⟩
      · rw [hname] at hno
        cases hno
      · obtain ⟨q, hq, hstore, hchanged⟩ := renameTarget_of_ok hn hpasses hok
        refine ⟨q, hq, .of_store_eq h hstore fun hfalse => ?_⟩
        rw [hchanged, Bool.or_eq_false_iff] at hfalse
        exact hfalse.1
      · obtain ⟨q, hq, hstore, hchanged⟩ := renameTarget_of_ok hn hpasses hok
        refine ⟨q, hq, hstore ▸ ht, hstore ▸ relabels_of_renamed hrenamed, fun hfalse => ?_⟩
        rw [hchanged, bne_iff_ne.mpr hdiffers, Bool.true_and, Bool.or_true] at hfalse
        cases hfalse

theorem newNameFaults_eq_nil_iff {name : String} : newNameFaults name = [] ↔
    name ≠ "" ∧ isValidName name = true ∧ Vocabulary.isReserved name = false ∧
      Vocabulary.isKeyword name = false := by
  rw [newNameFaults]
  by_cases hblank : name = ""
  · simp [hblank]
  · cases hvalid : isValidName name <;> cases hreserved : Vocabulary.isReserved name <;>
      simp [hblank, faultIf_eq_nil]

theorem Admitted.newNameDemands (ha : s.Admitted) (hverb : s.verb = .rename) :
    s.newName ≠ "" ∧ isValidName s.newName = true ∧ Vocabulary.isReserved s.newName = false ∧
      Vocabulary.isKeyword s.newName = false := by
  have hfaults := ha.verbFaults
  rw [Statement.verbFaults, hverb] at hfaults
  exact newNameFaults_eq_nil_iff.mp (List.append_eq_nil_iff.mp hfaults).2

/-- A renaming gives nodes its new name, and is never interrupted. -/
theorem Admitted.rename_renames (ha : s.Admitted) (hverb : s.verb = .rename) {store : Store}
    (h : store.Coherent) : ∃ t response, s.rename store = .ok (t, response) ∧ t.Coherent ∧
      Relabels s.newName store t ∧ (response.changed = false → t = store) := by
  obtain ⟨hblank, hvalid, _⟩ := ha.newNameDemands hverb
  have hname : isNodeName s.newName = true := isNodeName_of_isValidName hvalid hblank
  have hbelow : ∀ p parent, p.store.Coherent →
      ∃ q, s.renameBelow p parent = .ok q ∧ Renames s.newName p q :=
    fun _ parent hp =>
      Renames.foldlM (fun _ target hq => renameTarget_renames hname hq parent target) hp
  obtain ⟨q, hq, hrenames⟩ : ∃ q, ((s.candidateParents store).map Prod.snd).foldlM s.renameBelow
      { store } = .ok q ∧ Renames s.newName { store } q :=
    Renames.foldlM hbelow h
  refine ⟨q.store, .counted .rename q.lines q.count q.changed, ?_, hrenames.coherent,
    hrenames.nodes, fun hfalse => (hrenames.changed hfalse).2⟩
  rw [rename, hq]
  rfl

end Statement

end TreeDatabase
