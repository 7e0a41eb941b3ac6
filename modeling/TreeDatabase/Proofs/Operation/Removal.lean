import TreeDatabase.Operation.Delete
import TreeDatabase.Operation.Read
import TreeDatabase.Proofs.Ruleset.Subtree
import TreeDatabase.Proofs.Store.Removal

/-!
# What a deletion removes

The candidate parents of a deletion are found before anything is deleted, and come in the order of
their paths. What is removed on the way lies below earlier parents, and so never strictly below a
target that is still to come: a target is gone with a node above it, or its filter answers as in the
beginning.
-/

namespace TreeDatabase

open Store

/-- Whether a node passes a filter is decided by the names and values of what lies below it. -/
theorem Store.Coherent.passes_congr {s t : Store} (h : s.Coherent) {top : NodeId}
    (hchildren : ∀ id, s.Below top id → t.children id = s.children id)
    (hnodes : ∀ id, s.Below top id → id ≠ top →
      (t.get? id).map (fun n => (n.name, n.value)) = (s.get? id).map fun n => (n.name, n.value))
    (filter : Filter) : t.passes filter top = s.passes filter top := by
  have hbelow : ∀ {id c}, s.Below top id → c ∈ s.children id → s.Below top c ∧ c ≠ top := by
    intro id c hb hc
    obtain ⟨n, hn, hmem⟩ := mem_children_iff.mp hc
    exact ⟨hb.child hn hmem, fun he => h.not_below_child hn hmem (he ▸ hb)⟩
  have haccepts : ∀ {id c}, s.Below top id → c ∈ s.children id →
      ((t.get? c).any fun n => filter.accepts n.name n.value) =
        (s.get? c).any fun n => filter.accepts n.name n.value := by
    intro id c hb hc
    obtain ⟨hbc, hne⟩ := hbelow hb hc
    have heq := congrArg (Option.any fun e => filter.accepts e.1 e.2) (hnodes c hbc hne)
    rwa [Option.any_map, Option.any_map] at heq
  rw [passes, passes, hchildren top .self, Bool.eq_iff_iff]
  simp only [Bool.or_eq_true, List.any_eq_true]
  refine or_congr_right (exists_congr fun c => and_congr_right fun hc => ?_)
  have hb := (hbelow .self hc).1
  rw [haccepts .self hc, hchildren c hb]
  refine or_congr_right (exists_congr fun d => and_congr_right fun hd => ?_)
  rw [haccepts hb hd]

theorem Store.Without.inRuleSubtree_eq {s t : Store} {removed : List NodeId}
    (h : s.Without removed t) {id : NodeId} (hid : id ∉ removed) :
    t.inRuleSubtree id = s.inRuleSubtree id := by
  rw [inRuleSubtree, inRuleSubtree, h, if_neg hid]
  cases s.get? id <;> rfl

theorem Store.Prunes.finds {s t : Store} (hp : s.Prunes t) (hs : s.Coherent) (ht : t.Coherent)
    {includeRules : Bool} {segments : List String} {id : NodeId}
    (hf : t.Finds includeRules segments id) : s.Finds includeRules segments id := by
  induction hf with
  | root => exact .root
  | child _ live member node named admitted ih =>
    obtain ⟨n, hn, _, _, _, _, hsub⟩ := hp _ _ live
    obtain ⟨m, hm, hname, hpath, _⟩ := hp _ _ node
    refine .child ih hn (hsub member) hm (hname ▸ named) (admitted.imp_right fun hout => ?_)
    rwa [← hs.underRules_congr ht hm node hpath]

theorem Store.Prunes.passes {s t : Store} (hp : s.Prunes t) {filter : Filter} {id : NodeId}
    (h : t.passes filter id = true) : s.passes filter id = true := by
  have hchildren : ∀ {parent c}, c ∈ t.children parent → c ∈ s.children parent := by
    intro parent c hc
    obtain ⟨m, hm, hmem⟩ := mem_children_iff.mp hc
    obtain ⟨n, hn, _, _, _, _, hsub⟩ := hp _ _ hm
    exact mem_children_iff.mpr ⟨n, hn, hsub hmem⟩
  have haccepted : ∀ {c}, ((t.get? c).any fun n => filter.accepts n.name n.value) = true →
      ((s.get? c).any fun n => filter.accepts n.name n.value) = true := by
    intro c hc
    obtain ⟨m, hm, haccepts⟩ := Option.any_eq_true _ _ |>.mp hc
    obtain ⟨n, hn, hname, _, hvalue, _⟩ := hp _ _ hm
    rw [hn, Option.any_some, ← hname, ← hvalue]
    exact haccepts
  rw [Store.passes, Bool.or_eq_true, List.any_eq_true] at h ⊢
  refine h.imp_right fun ⟨c, hc, hcases⟩ => ⟨c, hchildren hc, ?_⟩
  rw [Bool.or_eq_true, List.any_eq_true] at hcases ⊢
  exact hcases.imp haccepted fun ⟨d, hd, hdaccepted⟩ => ⟨d, hchildren hd, haccepted hdaccepted⟩

theorem Store.Coherent.mem_findParentsOf {s : Store} (h : s.Coherent) {parent c : NodeId}
    {n m : Node} {includeRules : Bool} (hn : s.get? parent = some n) (hc : c ∈ n.children)
    (hm : s.get? c = some m) (hrules : includeRules = true ∨ ¬ s.UnderRules c) :
    (n.path, parent) ∈ s.findParentsOf m.name includeRules := by
  have hne := h.tree.ne_root_of_mem_children hn hc
  have hparent := h.tree.parent_of_mem_children hn hc hm
  rw [findParentsOf, List.mem_filterMap]
  refine ⟨(m.path, c), h.mem_findByName_iff.mpr
    ⟨m, h.reached_iff.mpr ⟨hne, hm⟩, rfl, rfl, hrules⟩, ?_⟩
  rw [hm, Option.bind_some, hparent, Option.bind_some, located?, hn, Option.map_some]

namespace Statement

variable {s : Statement} {store : Store}

theorem blank_le (path : String) : "" ≤ path := by
  intro hlt
  simpa using String.lt_iff.mp hlt

/-- The candidates come in the order of their paths. -/
theorem pairwise_candidateParents (s : Statement) (store : Store) :
    (s.candidateParents store).Pairwise fun a b => a.1 ≤ b.1 := by
  rw [candidateParents]
  exact (pairwise_mergeSort_key Prod.fst _).sublist (sublist_eraseReps _)

theorem mem_children_of_mem_targets (h : store.Coherent) {parent id : NodeId}
    (hmem : id ∈ s.targets store parent) : id ∈ store.children parent := by
  rw [targets] at hmem
  split at hmem
  · exact (List.mem_filter.mp hmem).1
  · obtain ⟨n, _, hn, hc, _⟩ := h.child?_iff.mp (Option.mem_toList.mp hmem)
    exact mem_children_iff.mpr ⟨n, hn, hc⟩

/-- The targets below a parent are those of before that are still there. -/
theorem mem_targets_without {t : Store} {removed : List NodeId} (hw : store.Without removed t)
    (h : store.Coherent) (ht : t.Coherent) {parent id : NodeId} :
    id ∈ s.targets t parent ↔ id ∈ s.targets store parent ∧ id ∉ removed := by
  rw [targets, targets]
  split
  · rw [List.mem_filter, List.mem_filter, hw.mem_children_iff h ht]
    constructor
    · rintro ⟨⟨hc, hid⟩, hrules⟩
      exact ⟨⟨hc, hw.inRuleSubtree_eq hid ▸ hrules⟩, hid⟩
    · rintro ⟨⟨hc, hrules⟩, hid⟩
      exact ⟨⟨hc, hid⟩, (hw.inRuleSubtree_eq hid).symm ▸ hrules⟩
  · rw [Option.mem_toList, Option.mem_toList]
    exact hw.child?_iff h ht

/-- A statement hits the targets of its candidate parents that pass its filter. -/
def Hits (s : Statement) (store : Store) (id : NodeId) : Prop :=
  ∃ entry ∈ s.candidateParents store,
    id ∈ s.targets store entry.2 ∧ store.passes s.filter id = true

/-! ## Deletions on their way -/

/-- What a deletion has removed when it comes to a path, and has listed. -/
structure Removing (store : Store) (removed : List NodeId) (path : String) (p : Progress) :
    Prop where
  coherent : p.store.Coherent
  without : store.Without removed p.store
  nodup : removed.Nodup
  lines : List.Forall₂ (fun line id => ∃ n, store.get? id = some n ∧ n.path = line) p.lines removed
  count : p.count = removed.length
  /-- What was removed was so with a child of a node whose path comes no later. -/
  earlier : ∀ id ∈ removed, ∃ parent n top, store.get? parent = some n ∧ n.path ≤ path ∧
    top ∈ n.children ∧ top ∈ removed ∧ store.Below top id

namespace Removing

variable {removed : List NodeId} {path : String} {p : Progress}

theorem start (h : store.Coherent) (path : String) : Removing store [] path { store } :=
  ⟨h, .refl store, List.nodup_nil, .nil, rfl, by simp⟩

theorem mono (hr : Removing store removed path p) {later : String} (hle : path ≤ later) :
    Removing store removed later p := by
  refine ⟨hr.coherent, hr.without, hr.nodup, hr.lines, hr.count, fun id hid => ?_⟩
  obtain ⟨parent, n, top, hn, hpath, hrest⟩ := hr.earlier id hid
  exact ⟨parent, n, top, hn, String.le_trans hpath hle, hrest⟩

/-- Nothing was removed below a target that is still there. -/
theorem not_mem_of_below (hr : Removing store removed path p) (h : store.Coherent)
    {parent target : NodeId} {n : Node} (hn : store.get? parent = some n) (hpath : path ≤ n.path)
    (hmem : target ∈ n.children) (htarget : target ∉ removed) {id : NodeId}
    (hb : store.Below target id) : id ∉ removed := by
  intro hid
  obtain ⟨above, m, top, hm, hle, htop, hgone, hbtop⟩ := hr.earlier id hid
  rcases h.below_or_below hbtop hb with hup | hdown
  · exact htarget (hr.without.mem_of_below h hr.coherent hgone hup)
  · -- an earlier parent below the target would have a later path
    have hne : target ≠ top := fun he => htarget (he ▸ hgone)
    have hlt := h.path_lt_of_below_child hn hmem hm htop hdown hne
    exact String.lt_irrefl _ (Std.lt_of_lt_of_le hlt (String.le_trans hle hpath))

theorem passes_eq (hr : Removing store removed path p) (h : store.Coherent)
    {parent target : NodeId} {n : Node} (hn : store.get? parent = some n) (hpath : path ≤ n.path)
    (hmem : target ∈ n.children) (htarget : target ∉ removed) (filter : Filter) :
    p.store.passes filter target = store.passes filter target := by
  have hsame : ∀ id, store.Below target id → p.store.get? id = store.get? id := fun _ hb =>
    hr.without.get?_of_below (fun _ => hr.not_mem_of_below h hn hpath hmem htarget) hb
  exact h.passes_congr (fun id hb => by rw [Store.children, Store.children, hsame id hb])
    (fun id hb _ => by rw [hsame id hb]) filter

/-- The deletion of a child with all that lies below it. -/
theorem deleteChild (hr : Removing store removed path p) (h : store.Coherent)
    {parent target : NodeId} {n m : Node} (hn : store.get? parent = some n) (hpath : n.path ≤ path)
    (hmem : target ∈ n.children) (hm : store.get? target = some m) (htarget : target ∉ removed)
    (changed : Bool) :
    let deleted := p.store.deleteChild parent m.name
    ∃ more, Removing store (removed ++ more) path
        ⟨deleted.1, p.lines ++ deleted.2, p.count + deleted.2.length, changed⟩ ∧
      ∀ id, id ∈ removed ++ more ↔ id ∈ removed ∨ store.Below target id := by
  intro deleted
  have hw := hr.without
  have hp := hr.coherent
  have hparent := h.tree.parent_of_mem_children hn hmem hm
  have hlive := hw.get?_eq_some htarget hm
  have hchild : p.store.child? parent m.name = some target :=
    hp.child?_iff_parent.mpr ⟨_, hlive, hparent, rfl⟩
  have hv := hp.visits hlive
  have hbelow : ∀ id, id ∈ removed ++ p.store.subtree target ↔
      id ∈ removed ∨ store.Below target id := by
    intro id
    rw [List.mem_append, hp.mem_subtree_iff hlive, hw.below_iff h hp htarget]
    by_cases hid : id ∈ removed <;> simp [hid]
  obtain ⟨t, hdeleted, hd, ht⟩ : ∃ t, deleted =
      (t, (p.store.visit (fun _ _ => true) target).map (·.2.path)) ∧
      p.store.Deleted parent target t ∧ t.Coherent := by
    rcases hp.deleteChild_cases parent m.name with ⟨hnone, _⟩ | ⟨c, t, paths, hc, hdel, _, hd, ht⟩
    · rw [hchild] at hnone
      cases hnone
    · rw [hchild] at hc
      cases hc
      have hstore : deleted.1 = t := by rw [show deleted = (t, paths) from hdel]
      refine ⟨t, Prod.ext hstore ?_, hd, ht⟩
      simp only [deleted, Store.deleteChild, hchild]
  refine ⟨p.store.subtree target, ?_, hbelow⟩
  rw [hdeleted]
  refine ⟨ht, hw.deleted hp hd, ?_, ?_, ?_, ?_⟩
  · refine List.nodup_append.mpr ⟨hr.nodup, hp.nodup_subtree hlive, ?_⟩
    rintro i hi j hj rfl
    rw [hp.mem_subtree_iff hlive, hw.below_iff h hp htarget] at hj
    exact hj.2 hi
  · refine List.rel_append hr.lines ?_
    rw [subtree, List.forall₂_map_left_iff, List.forall₂_map_right_iff, List.forall₂_same]
    intro entry hentry
    obtain ⟨_, k, hk, heq⟩ := hw.of_get? (hv.live entry hentry)
    exact ⟨k, hk, by rw [heq]⟩
  · simp [hr.count, subtree]
  · intro id hid
    rcases (hbelow id).mp hid with hold | hnew
    · obtain ⟨above, k, top, hk, hle, htop, hgone, hb⟩ := hr.earlier id hold
      exact ⟨above, k, top, hk, hle, htop, List.mem_append_left _ hgone, hb⟩
    · exact ⟨parent, n, target, hn, hpath, hmem, (hbelow target).mpr (.inr .self), hnew⟩

/-- The deletion of one target removes it with all that lies below it, when it passes the filter. -/
theorem deleteTarget {n : Node} (hr : Removing store removed n.path p) (h : store.Coherent)
    {parent target : NodeId} (hn : store.get? parent = some n) (hmem : target ∈ n.children) :
    ∃ more, Removing store (removed ++ more) n.path (s.deleteTarget parent p target) ∧
      ∀ id, id ∈ removed ++ more ↔
        id ∈ removed ∨ store.passes s.filter target = true ∧ store.Below target id := by
  obtain ⟨m, hm, _⟩ := h.tree.child hn hmem
  by_cases htarget : target ∈ removed
  · refine ⟨[], ?_, fun id => ?_⟩
    · rw [Statement.deleteTarget, hr.without.get?_eq_none htarget, List.append_nil]
      exact hr
    · rw [List.append_nil]
      exact ⟨.inl, fun hid => hid.elim (fun hold => hold) fun hb =>
        hr.without.mem_of_below h hr.coherent htarget hb.2⟩
  · have hpasses := hr.passes_eq h hn (String.le_refl _) hmem htarget s.filter
    rw [Statement.deleteTarget, hr.without.get?_eq_some htarget hm]
    dsimp only
    rw [hpasses]
    cases store.passes s.filter target with
    | false => exact ⟨[], by simpa using hr, by simp⟩
    | true =>
      rw [if_pos rfl]
      obtain ⟨more, hmore, hiff⟩ :=
        hr.deleteChild h hn (String.le_refl _) hmem hm htarget
          (p.changed || !(p.store.deleteChild parent m.name).2.isEmpty)
      exact ⟨more, hmore, by simpa using hiff⟩

theorem deleteTargets {n : Node} {parent : NodeId} (h : store.Coherent)
    (hn : store.get? parent = some n) {targets : List NodeId} (hsub : targets ⊆ n.children)
    {removed : List NodeId} {p : Progress} (hr : Removing store removed n.path p) :
    ∃ more, Removing store (removed ++ more) n.path (targets.foldl (s.deleteTarget parent) p) ∧
      ∀ id, id ∈ removed ++ more ↔ id ∈ removed ∨
        ∃ target ∈ targets, store.passes s.filter target = true ∧ store.Below target id := by
  induction targets generalizing removed p with
  | nil => exact ⟨[], by simpa using hr, by simp⟩
  | cons target targets ih =>
    obtain ⟨first, hfirst, hiff⟩ := hr.deleteTarget (s := s) h hn (hsub List.mem_cons_self)
    obtain ⟨rest, hrest, hiff'⟩ := ih (fun _ hc => hsub (List.mem_cons_of_mem _ hc)) hfirst
    refine ⟨first ++ rest, List.append_assoc .. ▸ hrest, fun id => ?_⟩
    rw [← List.append_assoc, hiff', hiff, List.exists_mem_cons_iff, or_assoc]

/-- The deletions below one parent remove what they would have removed in the beginning. -/
theorem deleteBelow {n : Node} (hr : Removing store removed n.path p) (h : store.Coherent)
    {parent : NodeId} (hn : store.get? parent = some n) :
    ∃ more, Removing store (removed ++ more) n.path (s.deleteBelow p parent) ∧
      ∀ id, id ∈ removed ++ more ↔ id ∈ removed ∨ ∃ target ∈ s.targets store parent,
        store.passes s.filter target = true ∧ store.Below target id := by
  have htargets : ∀ {target}, target ∈ s.targets p.store parent ↔
      target ∈ s.targets store parent ∧ target ∉ removed :=
    mem_targets_without hr.without h hr.coherent
  have hsub : s.targets p.store parent ⊆ n.children := by
    intro target htarget
    rw [← children_of_get? hn]
    exact mem_children_of_mem_targets h (htargets.mp htarget).1
  obtain ⟨more, hmore, hiff⟩ := deleteTargets (s := s) h hn hsub hr
  refine ⟨more, hmore, fun id => (hiff id).trans ?_⟩
  constructor
  · rintro (hid | ⟨target, htarget, hrest⟩)
    · exact .inl hid
    · exact .inr ⟨target, (htargets.mp htarget).1, hrest⟩
  · rintro (hid | ⟨target, htarget, hpasses, hb⟩)
    · exact .inl hid
    · by_cases hgone : target ∈ removed
      · exact .inl (hr.without.mem_of_below h hr.coherent hgone hb)
      · exact .inr ⟨target, htargets.mpr ⟨htarget, hgone⟩, hpasses, hb⟩

/-- The parents have to come in the order of their paths. -/
theorem deleteParents (h : store.Coherent) {entries : List (String × NodeId)}
    (hlive : ∀ entry ∈ entries, ∃ n, store.get? entry.2 = some n ∧ n.path = entry.1)
    (horder : entries.Pairwise fun a b => a.1 ≤ b.1) {removed : List NodeId} {path : String}
    {p : Progress} (hr : Removing store removed path p)
    (hpath : ∀ entry ∈ entries, path ≤ entry.1) :
    ∃ more last, Removing store (removed ++ more) last
        ((entries.map Prod.snd).foldl s.deleteBelow p) ∧
      ∀ id, id ∈ removed ++ more ↔ id ∈ removed ∨ ∃ entry ∈ entries,
        ∃ target ∈ s.targets store entry.2,
          store.passes s.filter target = true ∧ store.Below target id := by
  induction entries generalizing removed path p with
  | nil => exact ⟨[], path, by simpa using hr, by simp⟩
  | cons entry entries ih =>
    obtain ⟨n, hn, hentry⟩ := hlive entry List.mem_cons_self
    obtain ⟨hfirst, horder'⟩ := List.pairwise_cons.mp horder
    have hr' : Removing store removed n.path p :=
      hr.mono (hentry ▸ hpath entry List.mem_cons_self)
    obtain ⟨more, hmore, hiff⟩ := hr'.deleteBelow (s := s) h hn
    obtain ⟨rest, last, hrest, hiff'⟩ :=
      ih (fun e he => hlive e (List.mem_cons_of_mem _ he)) horder' hmore
        (fun e he => hentry ▸ hfirst e he)
    refine ⟨more ++ rest, last, List.append_assoc .. ▸ hrest, fun id => ?_⟩
    rw [← List.append_assoc, hiff', hiff, List.exists_mem_cons_iff, or_assoc]

end Removing

/-! ## The whole deletion -/

/-- What a deletion makes of a store and answers, given the nodes that it removes: those that it
hits, with all that lies below them. All others stay as they are, but for the children they lose.-/
structure Clears (s : Statement) (store : Store) (removed : List NodeId) (t : Store)
    (response : Response) : Prop where
  mem_iff : ∀ id, id ∈ removed ↔ ∃ target, s.Hits store target ∧ store.Below target id
  nodup : removed.Nodup
  without : store.Without removed t
  lines : List.Forall₂ (fun line id => ∃ n, store.get? id = some n ∧ n.path = line)
    response.lines removed
  lines_nodup : response.lines.Nodup
  count : response.count = removed.length

/-- Different nodes are listed under different paths. -/
theorem nodup_lines (h : store.Coherent) {lines : List String} {ids : List NodeId}
    (hlines : List.Forall₂ (fun line id => ∃ n, store.get? id = some n ∧ n.path = line) lines ids)
    (hids : ids.Nodup) : lines.Nodup := by
  induction hlines with
  | nil => exact List.nodup_nil
  | @cons line id lines ids hline hrest ih =>
    rw [List.nodup_cons] at hids ⊢
    refine ⟨fun hmem => ?_, ih hids.2⟩
    obtain ⟨n, hn, hpath⟩ := hline
    obtain ⟨i, hi, rfl⟩ := List.mem_iff_getElem.mp hmem
    obtain ⟨m, hm, hpath'⟩ := hrest.get hi (hrest.length_eq ▸ hi)
    have heq := h.path_inj hn hm (hpath.trans hpath'.symm)
    exact hids.1 (heq ▸ List.getElem_mem _)

/-- The lines of the answer tell which nodes are removed. -/
theorem Clears.removed_eq {t : Store} {removed ids : List NodeId} {response : Response}
    (hc : s.Clears store removed t response) (h : store.Coherent)
    (hids : ids.map (fun id => (store.get? id).map (·.path)) = response.lines.map some) :
    removed = ids := by
  have hlines := hc.lines
  generalize response.lines = lines at hlines hids
  clear hc
  induction hlines generalizing ids with
  | nil => exact (List.map_eq_nil_iff.mp hids).symm
  | cons hline _ ih =>
    obtain ⟨id, rest, rfl, hid, hrest⟩ := List.map_eq_cons_iff.mp hids
    obtain ⟨n, hn, hpath⟩ := hline
    obtain ⟨m, hm, hpath'⟩ := Option.map_eq_some_iff.mp hid
    rw [h.path_inj hn hm (hpath.trans hpath'.symm), ih hrest]

/-- A deletion removes what lies below its targets in the store that it began with. -/
theorem delete_clears (s : Statement) (h : store.Coherent) :
    ∃ removed, s.Clears store removed (s.delete store).1 (s.delete store).2 := by
  have hlive : ∀ entry ∈ s.candidateParents store,
      ∃ n, store.get? entry.2 = some n ∧ n.path = entry.1 := fun entry hentry =>
    live_of_mem_parentNodes h (mem_candidateParents_iff.mp hentry).1
  obtain ⟨removed, last, hr, hiff⟩ := Removing.deleteParents (s := s) h hlive
    (pairwise_candidateParents s store) (Removing.start h "") fun entry _ => blank_le entry.1
  rw [List.nil_append] at hr hiff
  refine ⟨removed, fun id => ?_, hr.nodup, hr.without, hr.lines, nodup_lines h hr.lines hr.nodup,
    hr.count⟩
  rw [hiff]
  constructor
  · rintro (hnil | ⟨entry, hentry, target, htarget, hpasses, hb⟩)
    · cases hnil
    · exact ⟨target, ⟨entry, hentry, htarget, hpasses⟩, hb⟩
  · rintro ⟨target, ⟨entry, hentry, htarget, hpasses⟩, hb⟩
    exact .inr ⟨entry, hentry, target, htarget, hpasses, hb⟩

/-! ## After a deletion -/

theorem includesRules_congr {r : Statement} (hparents : r.parents = s.parents)
    (hname : r.selectedName = s.selectedName) : r.includesRules = s.includesRules := by
  rw [includesRules, includesRules, hierarchy, hierarchy, hparents, hname]

theorem targets_congr {r : Statement} (hparents : r.parents = s.parents)
    (hname : r.selectedName = s.selectedName) : r.targets = s.targets := by
  funext store parent
  rw [targets, targets, includesRules_congr hparents hname, selectsAll, selectsAll, hname]

/-- Where nodes were taken away, no parents are found that were not found before. -/
theorem mem_parentNodes_of_prunes {r : Statement} {t : Store} (hp : store.Prunes t)
    (h : store.Coherent) (ht : t.Coherent) (hr : r.verb ≠ .write) (hs : s.verb ≠ .write)
    (hparents : r.parents = s.parents) (hname : r.selectedName = s.selectedName)
    {entry : String × NodeId} (hmem : entry ∈ r.parentNodes t) :
    entry ∈ s.parentNodes store := by
  obtain ⟨path, id⟩ := entry
  have hrules := includesRules_congr hparents hname
  have hall : r.selectsAll = s.selectsAll := by rw [selectsAll, selectsAll, hname]
  rw [parentNodes, hparents, hrules, hall, hname] at hmem
  rw [parentNodes]
  by_cases hpath : s.parents = []
  · rw [if_neg (by simp [hpath])] at hmem ⊢
    by_cases hselects : s.selectsAll = true
    · rw [if_pos hselects] at hmem ⊢
      exact hmem
    · simp only [if_neg hselects, beq_eq_false_iff_ne.mpr hr, beq_eq_false_iff_ne.mpr hs,
        Bool.and_false, Bool.false_eq_true, ↓reduceIte] at hmem ⊢
      obtain ⟨c, n, m, hn, hnpath, hc, hm, hmname, hout⟩ := Statement.mem_findParentsOf ht hmem
      obtain ⟨n', hn', _, hpath', _, _, hsub⟩ := hp id n hn
      obtain ⟨m', hm', hname', hcpath, _⟩ := hp c m hm
      rw [← hmname, hname', ← hnpath, hpath']
      refine h.mem_findParentsOf hn' (hsub hc) hm' (hout.imp_right fun hnot => ?_)
      rwa [← h.underRules_congr ht hm' hm hcpath]
  · rw [if_pos hpath] at hmem ⊢
    obtain ⟨hroot, hf, n, hn, hnpath⟩ := ht.mem_resolvePath_iff.mp hmem
    obtain ⟨n', hn', _, hpath', _⟩ := hp id n hn
    exact h.mem_resolvePath_iff.mpr
      ⟨hroot, hp.finds h ht hf, n', hn', hpath'.symm.trans hnpath⟩

namespace Clears

variable {removed : List NodeId} {t : Store} {response : Response}

/-- What a statement of the same path has among its targets afterwards, was no target that the
deletion hit. -/
theorem target_of_same_path (hc : s.Clears store removed t response) (h : store.Coherent)
    (ht : t.Coherent) (hs : s.verb ≠ .write) {r : Statement} (hr : r.verb ≠ .write)
    (hparents : r.parents = s.parents) (hname : r.selectedName = s.selectedName)
    {entry : String × NodeId} (hentry : entry ∈ r.candidateParents t) {id : NodeId}
    (hid : id ∈ r.targets t entry.2) :
    id ∉ removed ∧ store.passes s.filter id = false := by
  rw [targets_congr hparents hname] at hid
  obtain ⟨htarget, hstays⟩ := (mem_targets_without hc.without h ht).mp hid
  have hparent := mem_parentNodes_of_prunes hc.without.prunes h ht hr hs hparents hname
    (mem_candidateParents_iff.mp hentry).1
  refine ⟨hstays, Bool.eq_false_iff.mpr fun hpasses => hstays ?_⟩
  refine (hc.mem_iff id).mpr ⟨id, ⟨entry, mem_candidateParents_iff.mpr ⟨hparent, ?_⟩, htarget,
    hpasses⟩, .self⟩
  rw [suits, if_neg hs]
  cases htargets : s.targets store entry.2 with
  | nil =>
    rw [htargets] at htarget
    cases htarget
  | cons => rfl

/-- A deletion leaves nothing that it would hit. -/
theorem not_hits (hc : s.Clears store removed t response) (h : store.Coherent) (ht : t.Coherent)
    (hs : s.verb ≠ .write) (id : NodeId) : ¬ s.Hits t id := by
  rintro ⟨entry, hentry, hid, hpasses⟩
  have hnot := (hc.target_of_same_path h ht hs hs rfl rfl hentry hid).2
  rw [hc.without.prunes.passes hpasses] at hnot
  cases hnot

/-- After a deletion without a filter, a reading of the same path finds nothing. -/
theorem read_eq (hc : s.Clears store removed t response) (h : store.Coherent) (ht : t.Coherent)
    (hs : s.verb ≠ .write) (hfilter : s.filter.isEmpty = true) {r : Statement}
    (hr : r.verb = .read) (hparents : r.parents = s.parents)
    (hname : r.selectedName = s.selectedName) : r.read t = .counted .read [] 0 false := by
  have hread : r.verb ≠ .write := by simp [hr]
  have hnone : r.candidateParents t = [] := by
    rw [List.eq_nil_iff_forall_not_mem]
    intro entry hentry
    have hsuits := (mem_candidateParents_iff.mp hentry).2
    rw [suits, if_neg hread] at hsuits
    cases htargets : r.targets t entry.2 with
    | nil =>
      rw [htargets] at hsuits
      cases hsuits
    | cons id rest =>
      have hid : id ∈ r.targets t entry.2 := htargets ▸ List.mem_cons_self
      have hnot := (hc.target_of_same_path h ht hs hread hparents hname hentry hid).2
      rw [passes, hfilter, Bool.true_or] at hnot
      cases hnot
  rw [read, hnone]
  rfl

end Clears

end Statement

end TreeDatabase
