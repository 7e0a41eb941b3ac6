import TreeDatabase.Proofs.Ruleset.Persisted
import TreeDatabase.Proofs.Ruleset.Subtree

/-!
# The effect of a write

The parents that the path of a write leads to are different nodes of one depth, so that its targets
and their children are all different nodes. No write of a node interferes with another one then, and
each node has the value in the end that was planned for it at the beginning.
-/

namespace TreeDatabase

open Store

namespace Store

variable {s t : Store} {ws : List NodeWrite}

/-- Of writes of different nodes each is in effect in the end. -/
theorem Writes.valueOf?_of_nodup (hw : s.Writes ws t) (h : Coherent s)
    (hids : (ws.map (·.id)).Nodup) {w : NodeWrite} (hmem : w ∈ ws) :
    t.valueOf? w.parent w.name = some (s.pending w).value := by
  have hchild := hw.child?_of_mem hmem
  obtain ⟨m, hm, _⟩ := (hw.coherent h).child?_iff_parent.mp hchild
  rw [valueOf?_of_child? hchild hm]
  rcases hw.value h hm with ⟨hnot, _⟩ | ⟨w', hmem', hid, _, hvalue⟩
  · exact absurd (List.mem_map_of_mem hmem) hnot
  · rw [← hvalue, List.inj_on_of_nodup_map hids hmem' hmem hid]

end Store

namespace Statement

variable {s : Statement} {store t : Store} {ws : List NodeWrite}

/-! ## Places -/

/-- The children of a node have different names. -/
theorem nodup_writtenNames (s : Statement) (h : store.Coherent) (parent : NodeId) :
    (s.writtenNames store parent).Nodup := by
  rw [writtenNames]
  split
  · next hw =>
    rw [targets, if_pos (by simp [selectsAll, hw])]
    rw [List.nodup_iff_pairwise_ne, List.pairwise_map, List.pairwise_filterMap]
    refine ((h.nodup_children parent).filter _).imp_of_mem fun {a b} ha hb hne n hn m hm hname => ?_
    obtain ⟨p, hp, hmem⟩ := mem_children_iff.mp (List.mem_filter.mp ha).1
    have hmem' := (List.mem_filter.mp hb).1
    rw [children_of_get? hp] at hmem'
    exact hne (h.sibling_inj hp hmem hmem' hn hm hname)
  · exact List.nodup_singleton _

theorem nodup_places (h : store.Coherent) {parents : List NodeId} (hparents : parents.Nodup) :
    (s.places store parents).Nodup := by
  rw [places, List.nodup_flatMap]
  constructor
  · intro parent _
    exact (s.nodup_writtenNames h parent).map fun _ _ heq => (Prod.mk.inj heq).2
  · refine hparents.imp fun {p q} hne => ?_
    rintro ⟨c, name⟩ hp hq
    obtain ⟨_, _, heq⟩ := List.mem_map.mp hp
    obtain ⟨_, _, heq'⟩ := List.mem_map.mp hq
    exact hne ((Prod.mk.inj heq).1.trans (Prod.mk.inj heq').1.symm)

/-- The node at a place. -/
def nodeAt (store : Store) (place : NodeId × String) : NodeId :=
  (store.child? place.1 place.2).getD root

/-- What is asked for at a place, when the target is known: its value, and those of its children. -/
def requestsAt (s : Statement) (store : Store) (place : NodeId × String) :
    List (NodeId × String × Option String) :=
  (place.1, place.2, s.selectedValue) ::
    s.children.map fun child => (nodeAt store place, child.1, givenValue child)

/-- What was asked for can be told from the places and from the targets that are there in the
end. -/
theorem Lists.requests {places : List (NodeId × String)} (hl : s.Lists places ws)
    (hchild : ∀ w ∈ ws, t.child? w.parent w.name = some w.id) :
    ws.map (·.request) = places.flatMap (s.requestsAt t) := by
  induction hl with
  | nil => rfl
  | @cons parent id name places children ws requests _ ih =>
    have hid : nodeAt t (parent, name) = id := by
      rw [nodeAt, hchild ⟨parent, name, s.selectedValue, id⟩ List.mem_cons_self]
      rfl
    rw [List.map_cons, List.map_append, requests, List.flatMap_cons, requestsAt, hid,
      ih fun w hw => hchild w (List.mem_cons_of_mem _ (List.mem_append_right _ hw))]
    rfl

theorem Lists.child?_of_mem {places : List (NodeId × String)} (hl : s.Lists places ws)
    (hchild : ∀ w ∈ ws, t.child? w.parent w.name = some w.id) {place : NodeId × String}
    (hmem : place ∈ places) : t.child? place.1 place.2 = some (nodeAt t place) := by
  have hrequest : (place.1, place.2, s.selectedValue) ∈ ws.map (·.request) := by
    rw [hl.requests hchild]
    exact List.mem_flatMap.mpr ⟨place, hmem, List.mem_cons_self⟩
  obtain ⟨w, hw, heq⟩ := List.mem_map.mp hrequest
  obtain ⟨hparent, hname⟩ : w.parent = place.1 ∧ w.name = place.2 := by
    rw [NodeWrite.request, Prod.mk.injEq, Prod.mk.injEq] at heq
    exact ⟨heq.1, heq.2.1⟩
  have hfound := hchild w hw
  rw [hparent, hname] at hfound
  rw [nodeAt, hfound]
  rfl

/-- No name is written twice below one node, when no target is a parent. -/
theorem Lists.nodup_pairs {places : List (NodeId × String)} (hl : s.Lists places ws)
    (ht : t.Coherent) (hchild : ∀ w ∈ ws, t.child? w.parent w.name = some w.id)
    (hplaces : places.Nodup) (hchildren : s.childNames.Nodup)
    (hdeeper : ∀ p ∈ places, ∀ q ∈ places, nodeAt t p ≠ q.1) :
    (ws.map fun w => (w.parent, w.name)).Nodup := by
  have hrequests := congrArg (List.map fun r => (r.1, r.2.1)) (hl.requests hchild)
  rw [List.map_map, List.map_flatMap] at hrequests
  have hpair : ws.map (fun w => (w.parent, w.name)) =
      places.flatMap fun place => place :: s.childNames.map (nodeAt t place, ·) := by
    simpa [requestsAt, childNames, Function.comp_def, NodeWrite.request] using hrequests
  have hbelow : ∀ {p x}, x ∈ s.childNames.map (nodeAt t p, ·) → x.1 = nodeAt t p := by
    intro p x hx
    obtain ⟨_, _, rfl⟩ := List.mem_map.mp hx
    rfl
  rw [hpair, List.nodup_flatMap]
  constructor
  · intro p hp
    refine List.nodup_cons.mpr ⟨fun hmem => ?_, hchildren.map fun _ _ heq => (Prod.mk.inj heq).2⟩
    exact hdeeper p hp p hp (hbelow hmem).symm
  · refine hplaces.imp_of_mem fun {p q} hp hq hne => ?_
    intro x hx hx'
    rcases List.mem_cons.mp hx with rfl | hx <;> rcases List.mem_cons.mp hx' with heq | hx'
    · exact hne heq
    · exact hdeeper q hq x hp (hbelow hx').symm
    · exact hdeeper p hp q hq (heq ▸ (hbelow hx).symm)
    · have hfound := hl.child?_of_mem hchild hq
      rw [← hbelow hx', hbelow hx] at hfound
      exact hne (Prod.ext_iff.mpr (ht.child?_inj (hl.child?_of_mem hchild hp) hfound))

/-- Below parents of one depth all targets and all their children are different nodes. -/
theorem Lists.nodup_ids {places : List (NodeId × String)} (hl : s.Lists places ws)
    (ht : t.Coherent) (hchild : ∀ w ∈ ws, t.child? w.parent w.name = some w.id)
    (hplaces : places.Nodup) (hchildren : s.childNames.Nodup) {depth : Nat}
    (hdepth : ∀ place ∈ places, ∃ names, t.Leads names place.1 ∧ names.length = depth) :
    (ws.map (·.id)).Nodup := by
  -- a target is one deeper than the parents
  have hdeeper : ∀ p ∈ places, ∀ q ∈ places, nodeAt t p ≠ q.1 := by
    intro p hp q hq heq
    obtain ⟨above, habove, hlength⟩ := hdepth p hp
    obtain ⟨names, hnames, hlength'⟩ := hdepth q hq
    have hbelow := ht.leads_child_iff.mpr ⟨p.1, habove, hl.child?_of_mem hchild hp⟩
    have hsame := congrArg List.length (ht.leads_unique (heq ▸ hbelow) hnames)
    rw [List.length_append, List.length_singleton] at hsame
    omega
  have hids : ws.map (·.id) = (ws.map fun w => (w.parent, w.name)).map (nodeAt t) := by
    rw [List.map_map]
    refine List.map_congr_left fun w hw => ?_
    simp only [Function.comp, nodeAt, hchild w hw, Option.getD_some]
  rw [hids]
  refine (hl.nodup_pairs ht hchild hplaces hchildren hdeeper).map_on fun p hp q hq heq => ?_
  obtain ⟨w, hw, rfl⟩ := List.mem_map.mp hp
  obtain ⟨w', hw', rfl⟩ := List.mem_map.mp hq
  simp only [nodeAt, hchild w hw, hchild w' hw', Option.getD_some] at heq
  exact Prod.ext_iff.mpr (ht.child?_inj (hchild w hw) (heq ▸ hchild w' hw'))

/-- The parents that a path leads to are as deep as the path is long. -/
theorem leads_of_mem_candidateParents (h : store.Coherent) (hparents : s.parents ≠ [])
    {parent : NodeId} (hparent : parent ∈ (s.candidateParents store).map Prod.snd) :
    ∃ names, store.Leads names parent ∧ names.length = (behindRoot s.parents).length := by
  obtain ⟨entry, hentry, rfl⟩ := List.mem_map.mp hparent
  have hmem := (mem_candidateParents_iff.mp hentry).1
  rw [parentNodes, if_pos hparents] at hmem
  exact leads_of_finds (h.mem_resolvePath_iff.mp hmem).2.1

/-- The nodes that a write with a path writes are all different. -/
theorem nodup_ids_of_path (h : store.Coherent) (hparents : s.parents ≠ [])
    (hchildren : s.childNames.Nodup) (hw : store.Writes ws t)
    (hl : s.Lists (s.places store ((s.candidateParents store).map Prod.snd)) ws) :
    (ws.map (·.id)).Nodup := by
  have hdepth : ∀ place ∈ s.places store ((s.candidateParents store).map Prod.snd),
      ∃ names, t.Leads names place.1 ∧ names.length = (behindRoot s.parents).length := by
    intro place hplace
    obtain ⟨names, hl, hlength⟩ :=
      leads_of_mem_candidateParents h hparents (mem_places_iff.mp hplace).1
    exact ⟨names, hw.leads_kept h hl, hlength⟩
  exact hl.nodup_ids (hw.coherent h) (fun w hmem => hw.child?_of_mem hmem)
    (nodup_places h (s.nodup_candidateParents h)) hchildren hdepth

/-! ## The effect -/

/-- The nodes below which a write with a path writes. -/
def IsParent (s : Statement) (store : Store) (parent : NodeId) : Prop :=
  (∃ path, (path, parent) ∈ store.resolvePath s.parents s.includesRules) ∧
    store.passes s.filter parent = true

/-- The names that a write selects below a parent: its selected name, or those of the children
outside the rule subtree that the wildcard stands for. -/
def Selects (s : Statement) (store : Store) (parent : NodeId) (name : String) : Prop :=
  if s.selectedName = Vocabulary.wildcard then
    ∃ c, store.child? parent name = some c ∧ ¬ store.UnderRules c
  else name = s.selectedName

/-- What a write assigns to the child of a name: the selected value to a target, and to the children
of a target their values, unless these are blank. -/
inductive Assigns (s : Statement) (before after : Store) : NodeId → String → Option String → Prop
  | target {parent : NodeId} {name : String} (below : s.IsParent before parent)
      (selected : s.Selects before parent name) : Assigns s before after parent name s.selectedValue
  | child {parent target : NodeId} {name : String} {child : String × String}
      (below : s.IsParent before parent) (selected : s.Selects before parent name)
      (written : after.child? parent name = some target) (given : child ∈ s.children) :
      Assigns s before after target child.1 (givenValue child)

/-- A write has the effect that was planned. -/
structure CarriesOut (s : Statement) (before after : Store) (plan : List PendingWrite) : Prop where
  /-- What is assigned is there, with the value that is given, or else its old one, or a blank one
  if it is new. -/
  values : ∀ parent name given, s.Assigns before after parent name given →
    after.valueOf? parent name = some (given.getD ((before.valueOf? parent name).getD ""))
  /-- The plan has just the names and values of what is assigned, each once, and the nodes that are
  overwritten. -/
  plan : ∃ places : List (NodeId × String), places.Nodup ∧
    (∀ parent name, (parent, name) ∈ places ↔ ∃ given, s.Assigns before after parent name given) ∧
    plan = places.map fun place => ⟨place.2, (after.valueOf? place.1 place.2).getD "",
      before.child? place.1 place.2⟩
  /-- Every node is kept, with its children in order and new ones behind them, and has another value
  only if one is assigned. -/
  kept : ∀ id n, before.get? id = some n → ∃ m, after.get? id = some m ∧ m.name = n.name ∧
    m.path = n.path ∧ m.parent = n.parent ∧ n.children <+: m.children ∧
    (m.value = n.value ∨ ∃ parent name given, s.Assigns before after parent name given ∧
      before.child? parent name = some id)
  /-- Every new node is assigned. -/
  created : ∀ id m, after.get? id = some m → before.get? id = none →
    ∃ parent name given, s.Assigns before after parent name given ∧
      after.child? parent name = some id

/-- Writes of different nodes that are those which are assigned have the effect that was planned. -/
theorem carriesOut_of_writes (h : store.Coherent) (hw : store.Writes ws t)
    (hids : (ws.map (·.id)).Nodup)
    (hassigns : ∀ parent name given, s.Assigns store t parent name given ↔
      (parent, name, given) ∈ ws.map (·.request)) :
    s.CarriesOut store t (ws.map store.pending) := by
  have hassigned : ∀ w ∈ ws, s.Assigns store t w.parent w.name w.value := fun w hmem =>
    (hassigns _ _ _).mpr (List.mem_map.mpr ⟨w, hmem, rfl⟩)
  have hwritten : ∀ {parent name given}, s.Assigns store t parent name given →
      ∃ w ∈ ws, w.parent = parent ∧ w.name = name ∧ w.value = given := by
    intro parent name given ha
    obtain ⟨w, hmem, heq⟩ := List.mem_map.mp ((hassigns _ _ _).mp ha)
    rw [NodeWrite.request, Prod.mk.injEq, Prod.mk.injEq] at heq
    exact ⟨w, hmem, heq⟩
  constructor
  · intro parent name given ha
    obtain ⟨w, hmem, rfl, rfl, rfl⟩ := hwritten ha
    rw [hw.valueOf?_of_nodup h hids hmem]
    rfl
  · refine ⟨ws.map fun w => (w.parent, w.name), ?_, fun parent name => ⟨?_, ?_⟩, ?_⟩
    · refine hids.of_map.map_on fun w hmem w' hmem' heq => ?_
      obtain ⟨hparent, hname⟩ := Prod.mk.inj heq
      have hchild := hw.child?_of_mem hmem
      rw [hparent, hname, hw.child?_of_mem hmem'] at hchild
      exact (List.inj_on_of_nodup_map hids hmem' hmem (Option.some.inj hchild)).symm
    · intro hplace
      obtain ⟨w, hmem, heq⟩ := List.mem_map.mp hplace
      obtain ⟨rfl, rfl⟩ := Prod.mk.inj heq
      exact ⟨_, hassigned w hmem⟩
    · rintro ⟨given, ha⟩
      obtain ⟨w, hmem, rfl, rfl, _⟩ := hwritten ha
      exact List.mem_map.mpr ⟨w, hmem, rfl⟩
    · rw [List.map_map]
      refine List.map_congr_left fun w hmem => ?_
      rw [Function.comp, hw.valueOf?_of_nodup h hids hmem]
      rfl
  · intro id n hn
    obtain ⟨m, hm, hname, hpath, hparent, hprefix⟩ := hw.kept hn
    refine ⟨m, hm, hname, hpath, hparent, hprefix, ?_⟩
    rcases hw.value h hm with ⟨_, n', hn', _, _, hvalue⟩ | ⟨w, hmem, rfl, _⟩
    · rw [hn] at hn'
      cases hn'
      exact .inl hvalue
    · exact .inr ⟨_, _, _, hassigned w hmem, hw.child?_back h (hw.child?_of_mem hmem) hn⟩
  · intro id m hm hnone
    rcases hw.value h hm with ⟨_, n, hn, _⟩ | ⟨w, hmem, rfl, _⟩
    · rw [hnone] at hn
      cases hn
    · exact ⟨_, _, _, hassigned w hmem, hw.child?_of_mem hmem⟩

/-! ## Writes with a path -/

theorem mem_candidateParents_of_path (hverb : s.verb = .write) (hparents : s.parents ≠ [])
    {parent : NodeId} :
    parent ∈ (s.candidateParents store).map Prod.snd ↔ s.IsParent store parent := by
  rw [IsParent, List.mem_map]
  simp only [mem_candidateParents_iff, parentNodes, if_pos hparents, suits, if_pos hverb]
  constructor
  · rintro ⟨⟨path, id⟩, ⟨hmem, hpasses⟩, rfl⟩
    exact ⟨⟨path, hmem⟩, hpasses⟩
  · rintro ⟨⟨path, hmem⟩, hpasses⟩
    exact ⟨(path, parent), ⟨hmem, hpasses⟩, rfl⟩

theorem mem_writtenNames_iff (h : store.Coherent) (hrules : s.includesRules = false)
    {parent : NodeId} {name : String} :
    name ∈ s.writtenNames store parent ↔ s.Selects store parent name := by
  rw [writtenNames, Selects]
  split
  · next hw =>
    rw [targets, if_pos (by simp [selectsAll, hw])]
    simp only [List.mem_map, List.mem_filterMap, List.mem_filter, hrules, Bool.false_or,
      Bool.not_eq_true', ← Bool.not_eq_true, h.inRuleSubtree_iff, mem_children_iff, h.child?_iff]
    constructor
    · rintro ⟨n, ⟨c, ⟨⟨p, hp, hc⟩, hout⟩, hn⟩, hname⟩
      exact ⟨c, ⟨p, n, hp, hc, hn, hname⟩, hout⟩
    · rintro ⟨c, ⟨p, n, hp, hc, hn, hname⟩, hout⟩
      exact ⟨n, ⟨c, ⟨⟨p, hp, hc⟩, hout⟩, hn⟩, hname⟩
  · exact List.mem_singleton

theorem Admitted.mem_places_iff (ha : s.Admitted) (hverb : s.verb = .write)
    (hparents : s.parents ≠ []) (h : store.Coherent) (hshape : store.RuleShape)
    {parent : NodeId} {name : String} :
    (parent, name) ∈ s.places store ((s.candidateParents store).map Prod.snd) ↔
      s.IsParent store parent ∧ s.Selects store parent name := by
  rw [Statement.mem_places_iff, mem_candidateParents_of_path hverb hparents]
  refine and_congr_right fun hparent => mem_writtenNames_iff h ?_
  obtain ⟨entry, hentry, _⟩ :=
    List.mem_map.mp ((mem_candidateParents_of_path hverb hparents).mpr hparent)
  exact ha.not_includesRules hverb h hshape (mem_candidateParents_iff.mp hentry).1

/-- What is assigned is what was written. -/
theorem Admitted.assigns_iff (ha : s.Admitted) (hverb : s.verb = .write)
    (hparents : s.parents ≠ []) (h : store.Coherent) (hshape : store.RuleShape)
    (hw : store.Writes ws t)
    (hl : s.Lists (s.places store ((s.candidateParents store).map Prod.snd)) ws)
    (parent : NodeId) (name : String) (given : Option String) :
    s.Assigns store t parent name given ↔ (parent, name, given) ∈ ws.map (·.request) := by
  have hchild : ∀ w ∈ ws, t.child? w.parent w.name = some w.id := fun w hmem =>
    hw.child?_of_mem hmem
  have hplaces : ∀ {parent name},
      (parent, name) ∈ s.places store ((s.candidateParents store).map Prod.snd) ↔
        s.IsParent store parent ∧ s.Selects store parent name :=
    ha.mem_places_iff hverb hparents h hshape
  rw [hl.requests hchild, List.mem_flatMap]
  constructor
  · rintro (⟨hparent, hselected⟩ | ⟨hparent, hselected, hwritten, hmem⟩)
    · exact ⟨_, hplaces.mpr ⟨hparent, hselected⟩, List.mem_cons_self⟩
    · refine ⟨_, hplaces.mpr ⟨hparent, hselected⟩, List.mem_cons_of_mem _ ?_⟩
      refine List.mem_map.mpr ⟨_, hmem, ?_⟩
      rw [nodeAt, hwritten]
      rfl
  · rintro ⟨⟨p, target⟩, hplace, hrequest⟩
    obtain ⟨hparent, hselected⟩ := hplaces.mp hplace
    rcases List.mem_cons.mp hrequest with heq | hrequest
    · cases heq
      exact .target hparent hselected
    · obtain ⟨child, hmem, heq⟩ := List.mem_map.mp hrequest
      cases heq
      exact .child hparent hselected (hl.child?_of_mem hchild hplace) hmem

/-- A write without the check of its plan. -/
def writeUnchecked (s : Statement) (store : Store) : Except Interruption Progress :=
  ((s.candidateParents store).map Prod.snd).foldlM s.writeBelow { store }

theorem write_of_writeViolations
    (hnone : Ruleset.writeViolations store
      (s.planWrites store ((s.candidateParents store).map Prod.snd)) = []) :
    s.write store = (s.writeUnchecked store).map fun p =>
      (p.store, .counted .write p.lines p.count p.changed) := by
  rw [write, hnone, if_neg (by simp), writeUnchecked]
  cases ((s.candidateParents store).map Prod.snd).foldlM s.writeBelow { store } <;> rfl

/-- Unchecked, a write with a path does just the writes that were planned, of different nodes. -/
theorem Admitted.writeUnchecked_spec (ha : s.Admitted) (hparents : s.parents ≠ [])
    (hchildren : s.childNames.Nodup) (h : store.Coherent) :
    ∃ q ws, s.writeUnchecked store = .ok q ∧ Progresses { store } q ws ∧
      s.Lists (s.places store ((s.candidateParents store).map Prod.snd)) ws ∧
      ws.map store.pending =
        s.planWrites store ((s.candidateParents store).map Prod.snd) ∧
      (ws.map (·.id)).Nodup := by
  obtain ⟨q, ws, hq, hprogress, hlists⟩ :=
    writeParents_progresses h (ha.writable h) (p := { store }) rfl
  have hw := hprogress.writes
  refine ⟨q, ws, hq, hprogress, hlists, ?_, nodup_ids_of_path h hparents hchildren hw hlists⟩
  rw [planWrites_eq]
  exact hlists.pending fun w hmem => hw.child?_eq h hmem

/-- A write with a path whose plan breaks no rule has the effect that was planned, and answers one
line for each node. -/
theorem Admitted.write_carriesOut (ha : s.Admitted) (hverb : s.verb = .write)
    (hparents : s.parents ≠ []) (hchildren : s.childNames.Nodup) (h : store.Coherent)
    (hshape : store.RuleShape) {plan : List PendingWrite}
    (hplan : plan = s.planWrites store ((s.candidateParents store).map Prod.snd))
    (hnone : Ruleset.writeViolations store plan = []) :
    ∃ t response, s.write store = .ok (t, response) ∧ s.CarriesOut store t plan ∧
      response.verb = .write ∧ response.count = plan.length ∧
      response.lines.length = plan.length := by
  subst hplan
  obtain ⟨q, ws, hq, hprogress, hlists, hpending, hids⟩ :=
    ha.writeUnchecked_spec hparents hchildren h
  have hlength := congrArg List.length hpending
  rw [List.length_map] at hlength
  refine ⟨q.store, .counted .write q.lines q.count q.changed, ?_, ?_, rfl, ?_, ?_⟩
  · rw [write_of_writeViolations hnone, hq]
    rfl
  · rw [← hpending]
    exact carriesOut_of_writes h hprogress.writes hids
      (ha.assigns_iff hverb hparents h hshape hprogress.writes hlists)
  · rw [Response.counted, hprogress.counts.count, hlength]
    exact Nat.zero_add _
  · rw [Response.counted, hprogress.counts.lines, hlength]
    exact Nat.zero_add _

end Statement

end TreeDatabase
