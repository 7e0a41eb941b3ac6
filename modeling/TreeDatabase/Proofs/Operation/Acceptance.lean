import TreeDatabase.Proofs.Operation.Relabeling
import TreeDatabase.Proofs.Operation.Targets

/-!
# What a renaming renames

The candidate parents of a renaming are found before anything is renamed, and come in the order of
their paths. As in a deletion, nothing is renamed strictly below a target that is still to come, so
that its filter answers as in the beginning. Nothing is renamed later on at a target that is done,
or above it, so that what its line says stays true.
-/

namespace TreeDatabase

open Store

namespace Statement

variable {s : Statement} {store t : Store} {done renamed : List NodeId}

/-! ## Lines -/

/-- What a line of a renaming says of a target, with the names and paths that there are in the end:
it has the new name, or it has the old one, as a sibling has the new name. -/
inductive Tells (s : Statement) (store t : Store) (id : NodeId) : String → Prop
  | accepted {parent : NodeId} {k n m : Node} (above : t.get? parent = some k)
      (member : id ∈ k.children) (before : store.get? id = some n) (after : t.get? id = some m)
      (named : m.name = s.newName) :
      Tells s store t id (renamedLine (childPath k.path n.name) m.path)
  | refused {parent other : NodeId} {k n m : Node} (above : t.get? parent = some k)
      (member : id ∈ k.children) (before : store.get? id = some n) (after : t.get? id = some m)
      (named : m.name = n.name) (differs : n.name ≠ s.newName)
      (taken : t.child? parent s.newName = some other) :
      Tells s store t id (refusedLine m.path s.newName)

theorem tells_accepted {parent id : NodeId} {k n m : Node} {oldPath : String}
    (hk : t.get? parent = some k) (hmem : id ∈ k.children) (hn : store.get? id = some n)
    (hm : t.get? id = some m) (hname : m.name = s.newName)
    (hpath : oldPath = childPath k.path n.name) :
    Tells s store t id (renamedLine oldPath (((t.get? id).map (·.path)).getD "")) := by
  rw [hm, hpath]
  exact .accepted hk hmem hn hm hname

/-- A line stays true when a node is renamed that is neither the target nor above it. -/
theorem Tells.kept {u : Store} {id target : NodeId} {depth : Nat} {line : String}
    (hline : Tells s store t id line) (ht : t.Coherent) (hu : u.Coherent)
    (hr : t.Renamed target depth s.newName u) (hout : ¬ t.Below target id)
    (hdiffers : ∀ m, t.get? target = some m → m.name ≠ s.newName) : Tells s store u id line := by
  cases hline with
  | accepted above member before after named =>
    have hparent := fun hb => hout (Below.child hb above member)
    exact .accepted ((hr.kept _ hparent).trans above) member before ((hr.kept _ hout).trans after)
      named
  | @refused parent other _ _ _ above member before after named differs taken =>
    have hparent := fun hb => hout (Below.child hb above member)
    obtain ⟨k, m, hk, hmem, hm, hname⟩ := ht.child?_iff.mp taken
    have hother : ¬ t.Below target other := by
      intro hb
      refine hparent (ht.below_parent hk hmem hb ?_)
      rintro rfl
      exact hdiffers m hm hname
    refine .refused ((hr.kept _ hparent).trans above) member before ((hr.kept _ hout).trans after)
      named differs (hu.child?_iff.mpr ⟨k, m, ?_, hmem, ?_, hname⟩)
    · exact (hr.kept _ hparent).trans hk
    · exact (hr.kept _ hother).trans hm

def hasNewName (s : Statement) (t : Store) (id : NodeId) : Bool :=
  (t.get? id).any fun n => n.name == s.newName

/-! ## Renamings on their way -/

/-- What a renaming has done when it comes to a path: some of the targets that are done have the
new name. -/
structure Relabeling (s : Statement) (store : Store) (done renamed : List NodeId) (path : String)
    (p : Progress) : Prop where
  relabeled : Relabeled s.newName store renamed p.store
  subset : renamed ⊆ done
  hits : ∀ id ∈ done, s.Hits store id
  /-- What is done is a child of a node whose path comes no later. -/
  earlier : ∀ id ∈ done, ∃ parent n, store.get? parent = some n ∧ n.path ≤ path ∧
    id ∈ n.children
  lines : List.Forall₂ (Tells s store p.store) done p.lines
  count : p.count = done.countP (s.hasNewName p.store)

namespace Relabeling

variable {path : String} {p : Progress}

theorem start (s : Statement) (h : store.Coherent) (path : String) :
    Relabeling s store [] [] path { store } :=
  ⟨.refl h s.newName, List.Subset.refl _, by simp, by simp, .nil, rfl⟩

theorem mono (hr : Relabeling s store done renamed path p) {later : String} (hle : path ≤ later) :
    Relabeling s store done renamed later p := by
  refine ⟨hr.relabeled, hr.subset, hr.hits, fun id hid => ?_, hr.lines, hr.count⟩
  obtain ⟨parent, n, hn, hpath, hmem⟩ := hr.earlier id hid
  exact ⟨parent, n, hn, String.le_trans hpath hle, hmem⟩

/-- Nothing is done strictly below a child of a parent that comes no earlier. -/
theorem not_mem_of_below (hr : Relabeling s store done renamed path p) (h : store.Coherent)
    {parent target : NodeId} {n : Node} (hn : store.get? parent = some n) (hpath : path ≤ n.path)
    (hmem : target ∈ n.children) {id : NodeId} (hb : store.Below target id) (hne : id ≠ target) :
    id ∉ done := by
  intro hid
  obtain ⟨above, m, hm, hle, hc⟩ := hr.earlier id hid
  have hlt := h.path_lt_of_below_child hn hmem hm hc hb hne.symm
  exact String.lt_irrefl _ (Std.lt_of_lt_of_le hlt (String.le_trans hle hpath))

theorem passes_eq (hr : Relabeling s store done renamed path p) (h : store.Coherent)
    {parent target : NodeId} {n : Node} (hn : store.get? parent = some n) (hpath : path ≤ n.path)
    (hmem : target ∈ n.children) (filter : Filter) :
    p.store.passes filter target = store.passes filter target := by
  refine h.passes_congr (fun id _ => hr.relabeled.children_eq id) (fun id hb hne => ?_) filter
  obtain ⟨path, hnodes⟩ := hr.relabeled.nodes id
  rw [hnodes, Option.map_map]
  have hid : id ∉ renamed := fun hin =>
    hr.not_mem_of_below h hn hpath hmem hb hne (hr.subset hin)
  simp [Function.comp_def, hid]

/-- The nodes of the rule subtree stay the same. -/
theorem inRuleSubtree_eq (hr : Relabeling s store done renamed path p) (ha : s.Admitted)
    (hverb : s.verb = .rename) (h : store.Coherent) (id : NodeId) :
    p.store.inRuleSubtree id = store.inRuleSubtree id := by
  rw [Bool.eq_iff_iff, hr.relabeled.coherent.inRuleSubtree_iff, h.inRuleSubtree_iff]
  exact hr.relabeled.underRules_iff h (Admitted.ne_ruleSubtree (ha.newNameDemands hverb).2.2.1)
    fun id hid n hn hparent =>
      ha.name_ne_of_hits (.inr hverb) h (hr.hits id (hr.subset hid)) hn hparent

/-- Below a parent of which no child is done, the targets are those of before. -/
theorem targets_eq (hr : Relabeling s store done renamed path p) (ha : s.Admitted)
    (hverb : s.verb = .rename) (h : store.Coherent) {parent : NodeId}
    (hfresh : ∀ id ∈ done, id ∉ store.children parent) :
    s.targets p.store parent = s.targets store parent := by
  rw [targets, targets]
  split
  · rw [hr.relabeled.children_eq]
    exact List.filter_congr fun id _ => by rw [hr.inRuleSubtree_eq ha hverb h id]
  · rw [hr.relabeled.child?_eq h fun id hid => hfresh id (hr.subset hid)]

/-- A target that is still to come has its name, and its path goes on from that of its parent. -/
theorem live_target (hr : Relabeling s store done renamed path p) {parent target : NodeId}
    {n k : Node} (hn : store.get? parent = some n)
    (hmem : target ∈ n.children) (hk : store.get? target = some k) (hfresh : target ∉ done) :
    ∃ l m, p.store.get? parent = some l ∧ target ∈ l.children ∧ p.store.get? target = some m ∧
      m.name = k.name ∧ m.path = childPath l.path k.name := by
  obtain ⟨path, hparent⟩ := hr.relabeled.get?_eq_some hn
  obtain ⟨path', htarget⟩ := hr.relabeled.get?_eq_some hk
  rw [if_neg fun hin => hfresh (hr.subset hin)] at htarget
  exact ⟨_, _, hparent, hmem, htarget, rfl,
    hr.relabeled.coherent.tree.path_of_mem_children hparent hmem htarget⟩

/-- One more target is done, and has its line. -/
theorem snoc {n : Node} {parent target : NodeId} {renamed' : List NodeId} {line : String}
    {q : Progress} (hr : Relabeling s store done renamed n.path p)
    (hn : store.get? parent = some n) (hmem : target ∈ n.children) (hhits : s.Hits store target)
    (hrelabeled : Relabeled s.newName store renamed' q.store)
    (hsubset : renamed' ⊆ done ++ [target])
    (hkept : ∀ id ∈ done, s.hasNewName q.store id = s.hasNewName p.store id ∧
      ∀ line, Tells s store p.store id line → Tells s store q.store id line)
    (hlines : q.lines = p.lines ++ [line]) (hline : Tells s store q.store target line)
    (hcount : q.count = p.count + if s.hasNewName q.store target then 1 else 0) :
    Relabeling s store (done ++ [target]) renamed' n.path q := by
  refine ⟨hrelabeled, hsubset,
    List.forall_mem_append.mpr ⟨hr.hits, List.forall_mem_singleton.mpr hhits⟩,
    List.forall_mem_append.mpr ⟨hr.earlier, List.forall_mem_singleton.mpr
      ⟨parent, n, hn, String.le_refl _, hmem⟩⟩, ?_, ?_⟩
  · rw [hlines]
    refine List.rel_append ?_ (.cons hline .nil)
    refine ((List.forall₂_and_left _ _).mpr ⟨fun id hid => hid, hr.lines⟩).imp ?_
    rintro id line ⟨hid, hline⟩
    exact (hkept id hid).2 line hline
  · rw [hcount, hr.count, List.countP_append, List.countP_singleton]
    congr 1
    exact List.countP_congr fun id hid => by rw [(hkept id hid).1]

/-! ### A target that passes the filter -/

section Target

variable {n k : Node} {parent target : NodeId} (hr : Relabeling s store done renamed n.path p)
  (hn : store.get? parent = some n) (hmem : target ∈ n.children) (hhits : s.Hits store target)
  (hk : store.get? target = some k) (hfresh : target ∉ done)
  (hvalid : isNodeName s.newName = true) (hpasses : p.store.passes s.filter target = true)

include hr hn hmem hhits hk hfresh hvalid hpasses

/-- A target that has the new name already is accepted as it is. -/
theorem renameTarget_same (hsame : k.name = s.newName) :
    ∃ q, s.renameTarget parent p target = .ok q ∧
      Relabeling s store (done ++ [target]) renamed n.path q := by
  obtain ⟨l, m, hl, hmem', hm, hname, hpath⟩ := hr.live_target hn hmem hk hfresh
  have hnew : m.name = s.newName := hname.trans hsame
  have hchild : p.store.child? parent s.newName = some target :=
    hr.relabeled.coherent.child?_iff.mpr ⟨l, m, hl, hmem', hm, hnew⟩
  have hok : p.store.renameChild parent m.name s.newName = .ok (p.store, true) := by
    rw [hnew]
    exact renameChild_of_same hvalid hchild
  refine ⟨_, renameTarget_of_accepted hm hpasses hok, ?_⟩
  exact hr.snoc hn hmem hhits hr.relabeled (List.subset_append_of_subset_left _ hr.subset)
    (fun _ _ => ⟨rfl, fun _ hline => hline⟩) rfl (tells_accepted hl hmem' hk hm hnew hpath)
    (by simp [hasNewName, hm, hnew])

/-- A target is refused when another child of its parent has the new name. -/
theorem renameTarget_taken {other : NodeId} (hdiffers : k.name ≠ s.newName)
    (htaken : p.store.child? parent s.newName = some other) :
    ∃ q, s.renameTarget parent p target = .ok q ∧
      Relabeling s store (done ++ [target]) renamed n.path q := by
  obtain ⟨l, m, hl, hmem', hm, hname, _⟩ := hr.live_target hn hmem hk hfresh
  have hchild : p.store.child? parent m.name = some target :=
    hr.relabeled.coherent.child?_iff.mpr ⟨l, m, hl, hmem', hm, rfl⟩
  have hne : m.name ≠ s.newName := hname ▸ hdiffers
  refine ⟨_, renameTarget_of_refused hm hpasses (renameChild_of_taken hvalid hchild hne htaken), ?_⟩
  exact hr.snoc hn hmem hhits hr.relabeled (List.subset_append_of_subset_left _ hr.subset)
    (fun _ _ => ⟨rfl, fun _ hline => hline⟩) rfl
    (.refused hl hmem' hk hm hname hdiffers htaken) (by simp [hasNewName, hm, hne])

/-- A target gets the new name when no child of its parent has it. -/
theorem renameTarget_free (h : store.Coherent) (hdiffers : k.name ≠ s.newName)
    (hfree : p.store.child? parent s.newName = none) :
    ∃ q, s.renameTarget parent p target = .ok q ∧
      Relabeling s store (done ++ [target]) (renamed ++ [target]) n.path q := by
  have hp := hr.relabeled.coherent
  obtain ⟨l, m, hl, hmem', hm, hname, hpath⟩ := hr.live_target hn hmem hk hfresh
  have hne : m.name ≠ s.newName := hname ▸ hdiffers
  obtain ⟨above, hleads⟩ := hp.exists_leads hl
  have hrenamable : p.store.Renamable above parent target m.name s.newName :=
    ⟨hp, hleads, ⟨l, m, hl, hmem', hm, rfl⟩, hvalid, hfree⟩
  obtain ⟨t, hok, hrenamed, ht⟩ := hrenamable.renameChild hne
  refine ⟨_, renameTarget_of_accepted hm hpasses hok, ?_⟩
  have hafter : t.get? target = some (renamedNode target above.length s.newName target m) := by
    rw [hrenamed.moved target .self, hm, Option.map_some]
  have hnew : (renamedNode target above.length s.newName target m).name = s.newName := if_pos rfl
  refine hr.snoc hn hmem hhits (hr.relabeled.snoc hrenamed ht) ?_ ?_ rfl
    (tells_accepted ((hrenamed.kept parent hrenamable.not_below_parent).trans hl) hmem' hk hafter
      hnew hpath) (by simp [hasNewName, hafter, hnew])
  · exact List.append_subset.mpr
      ⟨List.subset_append_of_subset_left _ hr.subset, List.subset_append_right _ _⟩
  · -- what is done is not below the target, whose parent comes later
    intro id hid
    have hout : ¬ p.store.Below target id := by
      intro hb
      refine hr.not_mem_of_below h hn (String.le_refl _) hmem (hr.relabeled.below_iff.mp hb) ?_ hid
      rintro rfl
      exact hfresh hid
    refine ⟨by rw [hasNewName, hasNewName, hrenamed.kept id hout], fun line hline => ?_⟩
    refine hline.kept hp ht hrenamed hout fun m' hm' => ?_
    rw [hm] at hm'
    cases hm'
    exact hne

/-- The renaming of a target is accepted or refused. -/
theorem renameTarget_of_passes (h : store.Coherent) :
    ∃ q renamed', s.renameTarget parent p target = .ok q ∧
      Relabeling s store (done ++ [target]) renamed' n.path q := by
  by_cases hsame : k.name = s.newName
  · obtain ⟨q, hq, hstep⟩ :=
      hr.renameTarget_same hn hmem hhits hk hfresh hvalid hpasses hsame
    exact ⟨q, _, hq, hstep⟩
  · cases hchild : p.store.child? parent s.newName with
    | some other =>
      obtain ⟨q, hq, hstep⟩ :=
        hr.renameTarget_taken hn hmem hhits hk hfresh hvalid hpasses hsame hchild
      exact ⟨q, _, hq, hstep⟩
    | none =>
      obtain ⟨q, hq, hstep⟩ :=
        hr.renameTarget_free hn hmem hhits hk hfresh hvalid hpasses h hsame hchild
      exact ⟨q, _, hq, hstep⟩

end Target

/-! ### All targets -/

theorem renameTarget {entry : String × NodeId} {n : Node}
    (hr : Relabeling s store done renamed n.path p) (ha : s.Admitted) (hverb : s.verb = .rename)
    (h : store.Coherent) (hentry : entry ∈ s.candidateParents store)
    (hn : store.get? entry.2 = some n) {target : NodeId}
    (htarget : target ∈ s.targets store entry.2) (hfresh : target ∉ done) :
    ∃ q renamed', s.renameTarget entry.2 p target = .ok q ∧
      Relabeling s store (done ++ [target].filter (store.passes s.filter)) renamed' n.path q := by
  have hmem : target ∈ n.children := children_of_get? hn ▸ mem_children_of_mem_targets h htarget
  obtain ⟨k, hk, _⟩ := h.tree.child hn hmem
  have hpasses := hr.passes_eq h hn (String.le_refl _) hmem s.filter
  cases hfilter : store.passes s.filter target with
  | false =>
    obtain ⟨_, m, _, _, hm, _⟩ := hr.live_target hn hmem hk hfresh
    refine ⟨p, renamed, renameTarget_of_not_passes hm (hpasses.trans hfilter) entry.2, ?_⟩
    simpa [hfilter] using hr
  | true =>
    obtain ⟨hblank, hvalid, _⟩ := ha.newNameDemands hverb
    have hhits : s.Hits store target := ⟨entry, hentry, htarget, hfilter⟩
    rw [List.filter_singleton, hfilter]
    exact hr.renameTarget_of_passes hn hmem hhits hk hfresh
      (isNodeName_of_isValidName hvalid hblank) (hpasses.trans hfilter) h

theorem renameTargets {entry : String × NodeId} {n : Node} (ha : s.Admitted)
    (hverb : s.verb = .rename) (h : store.Coherent) (hentry : entry ∈ s.candidateParents store)
    (hn : store.get? entry.2 = some n) {targets done renamed : List NodeId} {p : Progress}
    (hr : Relabeling s store done renamed n.path p) (hsub : targets ⊆ s.targets store entry.2)
    (hnodup : targets.Nodup) (hfresh : ∀ target ∈ targets, target ∉ done) :
    ∃ q renamed', targets.foldlM (s.renameTarget entry.2) p = .ok q ∧
      Relabeling s store (done ++ targets.filter (store.passes s.filter)) renamed' n.path q := by
  induction targets generalizing done renamed p with
  | nil => exact ⟨p, renamed, rfl, by rwa [List.filter_nil, List.append_nil]⟩
  | cons target targets ih =>
    obtain ⟨hnot, hnodup'⟩ := List.nodup_cons.mp hnodup
    obtain ⟨q, first, hq, hfirst⟩ := hr.renameTarget ha hverb h hentry hn
      (hsub List.mem_cons_self) (hfresh target List.mem_cons_self)
    have hfresh' : ∀ c ∈ targets, c ∉ done ++ [target].filter (store.passes s.filter) := by
      intro c hc hin
      rcases List.mem_append.mp hin with hin | hin
      · exact hfresh c (List.mem_cons_of_mem _ hc) hin
      · rw [List.mem_singleton.mp (List.mem_filter.mp hin).1] at hc
        exact hnot hc
    obtain ⟨q', rest, hq', hrest⟩ :=
      ih hfirst (fun _ hc => hsub (List.mem_cons_of_mem _ hc)) hnodup' hfresh'
    refine ⟨q', rest, ?_, ?_⟩
    · rw [List.foldlM_cons, hq]
      exact hq'
    · rwa [List.append_assoc, ← List.filter_append, List.singleton_append] at hrest

/-- Below one parent the targets are renamed that pass the filter in the beginning. -/
theorem renameBelow {entry : String × NodeId} {n : Node}
    (hr : Relabeling s store done renamed n.path p) (ha : s.Admitted) (hverb : s.verb = .rename)
    (h : store.Coherent) (hentry : entry ∈ s.candidateParents store)
    (hn : store.get? entry.2 = some n) (hfresh : ∀ id ∈ done, id ∉ store.children entry.2) :
    ∃ q renamed', s.renameBelow p entry.2 = .ok q ∧
      Relabeling s store (done ++ (s.targets store entry.2).filter (store.passes s.filter))
        renamed' n.path q := by
  rw [Statement.renameBelow, hr.targets_eq ha hverb h hfresh]
  exact renameTargets ha hverb h hentry hn hr (List.Subset.refl _) (s.nodup_targets h entry.2)
    fun target htarget hin => hfresh target hin (mem_children_of_mem_targets h htarget)

/-- The parents have to come in the order of their paths. -/
theorem renameParents (ha : s.Admitted) (hverb : s.verb = .rename) (h : store.Coherent)
    {entries : List (String × NodeId)} (hsub : entries ⊆ s.candidateParents store)
    (horder : entries.Pairwise fun a b => a.1 ≤ b.1) (hnodup : (entries.map Prod.snd).Nodup)
    {done renamed : List NodeId} {path : String} {p : Progress}
    (hr : Relabeling s store done renamed path p) (hpath : ∀ entry ∈ entries, path ≤ entry.1)
    (hfresh : ∀ entry ∈ entries, ∀ id ∈ done, id ∉ store.children entry.2) :
    ∃ q renamed' last, (entries.map Prod.snd).foldlM s.renameBelow p = .ok q ∧
      Relabeling s store (done ++ (entries.flatMap fun entry => s.targets store entry.2).filter
        (store.passes s.filter)) renamed' last q := by
  induction entries generalizing done renamed path p with
  | nil => exact ⟨p, renamed, path, rfl, by simpa using hr⟩
  | cons entry entries ih =>
    have hentry := hsub List.mem_cons_self
    obtain ⟨n, hn, hnpath⟩ := live_of_mem_parentNodes h (mem_candidateParents_iff.mp hentry).1
    obtain ⟨hfirst, horder'⟩ := List.pairwise_cons.mp horder
    obtain ⟨hother, hnodup'⟩ := List.nodup_cons.mp hnodup
    have hr' : Relabeling s store done renamed n.path p :=
      hr.mono (hnpath ▸ hpath entry List.mem_cons_self)
    obtain ⟨q, _, hq, hbelow⟩ :=
      hr'.renameBelow ha hverb h hentry hn (hfresh entry List.mem_cons_self)
    -- what is done now is a child of this parent, and so of no later one
    have hfresh' : ∀ e ∈ entries, ∀ id ∈ done ++ (s.targets store entry.2).filter
        (store.passes s.filter), id ∉ store.children e.2 := by
      intro e he id hid hchild
      rcases List.mem_append.mp hid with hid | hid
      · exact hfresh e (List.mem_cons_of_mem _ he) id hid hchild
      · have hchild' := mem_children_of_mem_targets h (List.mem_filter.mp hid).1
        obtain ⟨m, hm, hmem⟩ := mem_children_iff.mp hchild
        obtain ⟨m', hm', hmem'⟩ := mem_children_iff.mp hchild'
        have heq := h.tree.parent_unique hm hm' hmem hmem'
        exact hother (List.mem_map.mpr ⟨e, he, heq⟩)
    obtain ⟨q', renamed', last, hq', hrest⟩ := ih (fun _ he => hsub (List.mem_cons_of_mem _ he))
      horder' hnodup' hbelow (fun e he => hnpath ▸ hfirst e he) hfresh'
    refine ⟨q', renamed', last, ?_, ?_⟩
    · rw [List.map_cons, List.foldlM_cons, hq]
      exact hq'
    · rwa [List.append_assoc, ← List.filter_append] at hrest

end Relabeling

/-! ## The whole renaming -/

namespace Admitted

/-- A renaming is never interrupted, and is done with all targets that pass its filter in the
end. -/
theorem rename_relabeling (ha : s.Admitted) (hverb : s.verb = .rename) (h : store.Coherent) :
    ∃ q renamed last, s.rename store =
        .ok (q.store, .counted .rename q.lines q.count q.changed) ∧
      Relabeling s store (s.hitTargets store) renamed last q := by
  obtain ⟨q, renamed, last, hq, hr⟩ := Relabeling.renameParents ha hverb h
    (List.Subset.refl _) (pairwise_candidateParents s store) (s.nodup_candidateParents h)
    (Relabeling.start s h "") (fun entry _ => blank_le entry.1) (by simp)
  refine ⟨q, renamed, last, ?_, hr⟩
  rw [rename, hq]
  rfl

/-- A renaming gives the new name to targets of its candidate parents that pass its filter in the
store that it began with, and to no others. -/
theorem rename_relabeled (ha : s.Admitted) (hverb : s.verb = .rename) (h : store.Coherent) :
    ∃ t response renamed, s.rename store = .ok (t, response) ∧
      Relabeled s.newName store renamed t ∧ ∀ id ∈ renamed, s.Hits store id := by
  obtain ⟨q, renamed, _, hq, hr⟩ := ha.rename_relabeling hverb h
  exact ⟨q.store, _, renamed, hq, hr.relabeled, fun id hid => hr.hits id (hr.subset hid)⟩

end Admitted

/-- What a renaming makes of a store and answers. The nodes stay as they are, but for their names
and paths. -/
structure RenamesHits (s : Statement) (store t : Store) (response : Response) : Prop where
  nodes : ∀ id, ∃ name path, t.get? id = (store.get? id).map fun n => { n with name, path }
  /-- A node has another name only if it was hit, and then the new one. -/
  names : ∀ id n m, store.get? id = some n → t.get? id = some m →
    m.name = n.name ∨ s.Hits store id ∧ m.name = s.newName
  wellFormed : t.WellFormed
  mem_iff : ∀ id, id ∈ s.hitTargets store ↔ s.Hits store id
  nodup : (s.hitTargets store).Nodup
  /-- The nodes that were hit have a line each, which says what became of them. -/
  lines : List.Forall₂ (Tells s store t) (s.hitTargets store) response.lines
  count : response.count = (s.hitTargets store).countP (s.hasNewName t)

theorem Admitted.rename_renamesHits (ha : s.Admitted) (hverb : s.verb = .rename)
    (h : store.Coherent) : ∃ t response, s.rename store = .ok (t, response) ∧
      response.isError = false ∧ s.RenamesHits store t response := by
  obtain ⟨q, renamed, _, hq, hr⟩ := ha.rename_relabeling hverb h
  refine ⟨q.store, _, hq, rfl, fun id => ?_, fun id n m hn hm => ?_,
    hr.relabeled.coherent.wellFormed, fun _ => mem_hitTargets_iff, s.nodup_hitTargets h, hr.lines,
    hr.count⟩
  · obtain ⟨path, hnodes⟩ := hr.relabeled.nodes id
    cases hn : store.get? id with
    | none => exact ⟨"", path, by rw [hnodes, hn]; rfl⟩
    | some n => exact ⟨_, path, by rw [hnodes, hn]; rfl⟩
  · obtain ⟨n', hn', heq⟩ := hr.relabeled.of_get? hm
    rw [hn] at hn'
    cases hn'
    rw [heq]
    by_cases hid : id ∈ renamed
    · exact .inr ⟨hr.hits id (hr.subset hid), if_pos hid⟩
    · exact .inl (if_neg hid)

end Statement

end TreeDatabase
