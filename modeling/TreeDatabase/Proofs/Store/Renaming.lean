import TreeDatabase.Proofs.Store.Traversal

/-!
# Renaming

A renaming gives one node a new name and then rewrites the paths of its subtree, parents first. In
between, some nodes of the subtree are entered in the index under their new path and the others
still under the old one. No entry is ever overwritten: the new paths go through a name that no
sibling has, so that no old path is among them.
-/

namespace TreeDatabase

/-- A path with another name at one depth. -/
def Path.withName (depth : Nat) (name path : String) : String :=
  Path.ofNames ((Path.segments path).set depth name)

namespace Store

/-- What a renaming starts from: a child of a parent, and a new name that no child of the parent
has. The names lead to the parent. -/
structure Renamable (s : Store) (above : List String) (parent target : NodeId)
    (oldName newName : String) : Prop where
  coherent : Coherent s
  leads : s.Leads above parent
  child : ∃ p n, s.get? parent = some p ∧ target ∈ p.children ∧ s.get? target = some n ∧
    n.name = oldName
  valid : isNodeName newName = true
  free : s.child? parent newName = none

/-- A node as a renaming leaves it when its path has been rewritten. -/
def renamedNode (target : NodeId) (depth : Nat) (newName : String) (id : NodeId) (n : Node) :
    Node :=
  { n with
    name := if id = target then newName else n.name
    path := Path.withName depth newName n.path }

/-- One store is another with a new name for a node at a depth. -/
structure Renamed (s : Store) (target : NodeId) (depth : Nat) (newName : String) (t : Store) :
    Prop where
  moved : ∀ j, s.Below target j → t.get? j = (s.get? j).map (renamedNode target depth newName j)
  kept : ∀ j, ¬ s.Below target j → t.get? j = s.get? j

namespace Renamed

variable {s t : Store} {target : NodeId} {depth : Nat} {newName : String}

/-- A node is one of before, which has moved when it lies below the target. -/
theorem live_before (hr : s.Renamed target depth newName t) {j : NodeId} {n : Node}
    (hn : t.get? j = some n) : ∃ m, s.get? j = some m ∧ n.parent = m.parent ∧
      n.children = m.children ∧ ((¬ s.Below target j ∧ n = m) ∨
        (s.Below target j ∧ n = renamedNode target depth newName j m)) := by
  by_cases hb : s.Below target j
  · rw [hr.moved j hb, Option.map_eq_some_iff] at hn
    obtain ⟨m, hm, rfl⟩ := hn
    exact ⟨m, hm, rfl, rfl, .inr ⟨hb, rfl⟩⟩
  · rw [hr.kept j hb] at hn
    exact ⟨n, hn, rfl, rfl, .inl ⟨hb, rfl⟩⟩

theorem live_after (hr : s.Renamed target depth newName t) {j : NodeId} {m : Node}
    (hm : s.get? j = some m) : ∃ n, t.get? j = some n ∧ n.parent = m.parent := by
  by_cases hb : s.Below target j
  · exact ⟨renamedNode target depth newName j m, by rw [hr.moved j hb, hm]; rfl, rfl⟩
  · exact ⟨m, by rw [hr.kept j hb, hm], rfl⟩

theorem exists_child (hr : s.Renamed target depth newName t) (h : Coherent s) {j c : NodeId}
    {n : Node} (hn : t.get? j = some n) (hc : c ∈ n.children) :
    ∃ m, t.get? c = some m ∧ m.parent = some j := by
  obtain ⟨m, hm, _, hchildren, _⟩ := hr.live_before hn
  obtain ⟨k, hk, hparent⟩ := h.tree.child hm (hchildren ▸ hc)
  obtain ⟨l, hl, hlparent⟩ := hr.live_after hk
  exact ⟨l, hl, hlparent.trans hparent⟩

theorem nodup_children (hr : s.Renamed target depth newName t) (h : Coherent s) {j : NodeId}
    {n : Node} (hn : t.get? j = some n) : n.children.Nodup := by
  obtain ⟨m, hm, _, hchildren, _⟩ := hr.live_before hn
  exact hchildren ▸ h.tree.nodup hm

end Renamed

namespace Renamable

variable {s : Store} {above : List String} {parent target : NodeId} {oldName newName : String}

theorem leads_target (h : s.Renamable above parent target oldName newName) :
    s.Leads (above ++ [oldName]) target := by
  obtain ⟨p, n, hp, hm, hn, rfl⟩ := h.child
  exact h.leads.child hp hm hn

/-- The old and the new path of a node below the target, by the names that lead to it. -/
theorem path_below (h : s.Renamable above parent target oldName newName) {id : NodeId} {n : Node}
    (hb : s.Below target id) (hn : s.get? id = some n) :
    ∃ below, s.Leads (above ++ oldName :: below) id ∧
      n.path = Path.ofNames (above ++ oldName :: below) ∧
      Path.withName above.length newName n.path = Path.ofNames (above ++ newName :: below) := by
  obtain ⟨below, hl⟩ := h.coherent.leads_of_below h.leads_target hb
  rw [List.append_assoc, List.singleton_append] at hl
  have hpath := h.coherent.path_eq_of_leads hl hn
  refine ⟨below, hl, hpath, ?_⟩
  rw [Path.withName, hpath, Path.segments_ofNames (by simp) (h.coherent.isNodeName_of_leads hl)]
  simp

theorem valid_names (h : s.Renamable above parent target oldName newName) {id : NodeId}
    {below : List String} (hl : s.Leads (above ++ oldName :: below) id) :
    ∀ name ∈ above ++ newName :: below, isNodeName name = true := by
  have hold := h.coherent.isNodeName_of_leads hl
  intro name hname
  rw [List.mem_append, List.mem_cons] at hname
  rcases hname with hname | rfl | hname
  · exact hold name (by simp [hname])
  · exact h.valid
  · exact hold name (by simp [hname])

/-- No node stands at a new path before the renaming. -/
theorem path_fresh (h : s.Renamable above parent target oldName newName) {id j : NodeId}
    {n m : Node} (hb : s.Below target id) (hn : s.get? id = some n) (hm : s.get? j = some m) :
    m.path ≠ Path.withName above.length newName n.path := by
  obtain ⟨below, hl, _, hnew⟩ := h.path_below hb hn
  obtain ⟨names, hj⟩ := h.coherent.exists_leads hm
  have hpath := h.coherent.path_eq_of_leads hj hm
  intro he
  rw [hpath, hnew] at he
  have hnames := Path.ofNames_inj (h.coherent.isNodeName_of_leads hj) (h.valid_names hl) he
  rw [hnames, ← List.singleton_append, ← List.append_assoc] at hj
  -- the names would lead through a child of the parent that has the new name
  obtain ⟨c, hc, _⟩ := hj.split
  obtain ⟨p, k, k', hp, hk, hmem, hk', hname⟩ := hc.parent
  obtain rfl := h.coherent.leads_inj hp h.leads
  have hchild := h.coherent.child?_iff.mpr ⟨k, k', hk, hmem, hk', hname⟩
  rw [h.free] at hchild
  cases hchild

/-- Different nodes below the target have different new paths. -/
theorem withName_inj (h : s.Renamable above parent target oldName newName) {i j : NodeId}
    {n m : Node} (hi : s.Below target i) (hn : s.get? i = some n) (hj : s.Below target j)
    (hm : s.get? j = some m)
    (he : Path.withName above.length newName n.path = Path.withName above.length newName m.path) :
    i = j := by
  obtain ⟨below, hl, hold, hnew⟩ := h.path_below hi hn
  obtain ⟨below', hl', hold', hnew'⟩ := h.path_below hj hm
  rw [hnew, hnew'] at he
  have hnames := Path.ofNames_inj (h.valid_names hl) (h.valid_names hl') he
  obtain rfl : below = below' := by simpa using hnames
  exact h.coherent.path_inj hn hm (hold.trans hold'.symm)

theorem withName_target (h : s.Renamable above parent target oldName newName) {p n : Node}
    (hp : s.get? parent = some p) (hn : s.get? target = some n) :
    Path.withName above.length newName n.path = childPath p.path newName := by
  have hpath := h.coherent.path_eq_of_leads h.leads hp
  have hold := h.coherent.path_eq_of_leads h.leads_target hn
  have hvalid := h.coherent.isNodeName_of_leads h.leads_target
  rw [Path.withName, hold, Path.segments_ofNames (by simp) hvalid, hpath,
    ← Path.ofNames_append_singleton (h.coherent.isNodeName_of_leads h.leads)]
  simp

theorem withName_child (h : s.Renamable above parent target oldName newName) {id c : NodeId}
    {n m : Node} (hb : s.Below target id) (hn : s.get? id = some n) (hc : c ∈ n.children)
    (hm : s.get? c = some m) : Path.withName above.length newName m.path =
      childPath (Path.withName above.length newName n.path) m.name := by
  obtain ⟨below, hl, hold, hnew⟩ := h.path_below hb hn
  have hlc := hl.child hn hc hm
  have hkp := h.coherent.path_eq_of_leads hlc hm
  rw [hnew, ← Path.ofNames_append_singleton (h.valid_names hl), Path.withName, hkp,
    Path.segments_ofNames (by simp) (h.coherent.isNodeName_of_leads hlc)]
  simp

theorem not_below_parent (h : s.Renamable above parent target oldName newName) :
    ¬ s.Below target parent := by
  obtain ⟨p, n, hp, hm, _⟩ := h.child
  exact h.coherent.not_below_child hp hm

theorem ne_root_of_below (h : s.Renamable above parent target oldName newName) {id : NodeId}
    (hb : s.Below target id) : id ≠ root := by
  obtain ⟨p, n, hp, hm, _⟩ := h.child
  rintro rfl
  exact h.coherent.root_not_below_child hp hm hb

section Tree

variable {t : Store} (h : s.Renamable above parent target oldName newName)
  (hr : s.Renamed target above.length newName t)
include h hr

theorem exists_root : ∃ n, t.get? Store.root = some n ∧ n.name = "" ∧ n.path = "" ∧
    n.parent = none := by
  obtain ⟨r, hroot, hblank⟩ := h.coherent.tree.root
  exact ⟨r, by rw [hr.kept Store.root fun hb => h.ne_root_of_below hb rfl, hroot], hblank⟩

/-- Above a node that was not moved no node was. -/
theorem above_of_kept {j : NodeId} {n : Node} (hb : ¬ s.Below target j)
    (hn : s.get? j = some n) (hj : j ≠ Store.root) : ∃ p m, n.parent = some p ∧
      t.get? p = some m ∧ j ∈ m.children ∧ n.path = childPath m.path n.name := by
  obtain ⟨p, k, hparent, hk, hmem, hpath⟩ := h.coherent.tree.above hn hj
  have hbp : ¬ s.Below target p := fun hbp => hb (hbp.child hk hmem)
  exact ⟨p, k, hparent, by rw [hr.kept p hbp, hk], hmem, hpath⟩

/-- The target stays below its parent, which was not moved, and all others that were moved stay
below a node that was moved. -/
theorem above_of_moved {j : NodeId} {n : Node} (hb : s.Below target j)
    (hn : s.get? j = some n) :
    let moved := renamedNode target above.length newName j n
    ∃ p m, moved.parent = some p ∧ t.get? p = some m ∧ j ∈ m.children ∧
      moved.path = childPath m.path moved.name := by
  intro moved
  obtain ⟨p, k, hparent, hk, hmem, hpath⟩ := h.coherent.tree.above hn (h.ne_root_of_below hb)
  by_cases hj : target = j
  · subst hj
    obtain ⟨q, _, hq, htarget, _⟩ := h.child
    obtain rfl : p = parent := h.coherent.tree.parent_unique hk hq hmem htarget
    refine ⟨p, k, hparent, by rw [hr.kept p h.not_below_parent, hk], hmem, ?_⟩
    simp only [moved, renamedNode, ↓reduceIte]
    exact h.withName_target hk hn
  · have hbp : s.Below target p := h.coherent.below_parent hk hmem hb hj
    refine ⟨p, renamedNode target above.length newName p k, hparent,
      by rw [hr.moved p hbp, hk, Option.map_some], hmem, ?_⟩
    simp only [moved, renamedNode, Ne.symm hj, ↓reduceIte]
    exact h.withName_child hbp hk hmem hn

theorem exists_above {j : NodeId} {n : Node} (hn : t.get? j = some n) (hj : j ≠ Store.root) :
    ∃ p m, n.parent = some p ∧ t.get? p = some m ∧ j ∈ m.children ∧
      n.path = childPath m.path n.name := by
  obtain ⟨m, hm, _, _, ⟨hb, rfl⟩ | ⟨hb, rfl⟩⟩ := hr.live_before hn
  · exact h.above_of_kept hr hb hm hj
  · exact h.above_of_moved hr hb hm

theorem isNodeName_name {j : NodeId} {n : Node} (hn : t.get? j = some n)
    (hj : j ≠ Store.root) : isNodeName n.name = true := by
  obtain ⟨m, hm, _, _, ⟨_, rfl⟩ | ⟨_, rfl⟩⟩ := hr.live_before hn
  · exact h.coherent.tree.name hm hj
  · rw [renamedNode]
    dsimp only
    split
    · exact h.valid
    · exact h.coherent.tree.name hm hj

theorem isTree : IsTree t.get? where
  root := h.exists_root hr
  above := h.exists_above hr
  child := hr.exists_child h.coherent
  nodup := hr.nodup_children h.coherent
  name := h.isNodeName_name hr

end Tree

end Renamable

/-! ## Rewriting the paths -/

/-- A renaming on its way: the nodes that have their new paths are listed, and these alone are
entered in the index as they are now. -/
structure Renaming (s : Store) (target : NodeId) (depth : Nat) (newName : String)
    (done : List NodeId) (u : Store) : Prop where
  nodes : ∀ j, u.get? j = (s.get? j).map fun n =>
    if j ∈ done then renamedNode target depth newName j n
    else { n with name := if j = target then newName else n.name }
  indexes : u.Indexes fun j => if j ∈ done then u.entry j else s.entry j
  tracksFree : u.TracksFree

/-- Gives a node a path, in the index too, where it stands under another name and path. -/
def reenter (s : Store) (id : NodeId) (oldName oldPath name path : String) : Store :=
  ((s.removeFromIndex oldName oldPath).addToIndex name path id).modifyNode id
    fun node => { node with path := path }

theorem repath_eq {u : Store} {id : NodeId} {n : Node} (indexedName : String)
    (hn : u.get? id = some n) : u.repath id indexedName = u.reenter id indexedName n.path n.name
      (childPath (((n.parent.bind u.get?).map (·.path)).getD "") n.name) := by
  rw [repath, hn]
  rfl

theorem get?_reenter (s : Store) (id : NodeId) (oldName oldPath name path : String) (j : NodeId) :
    (s.reenter id oldName oldPath name path).get? j =
      if j = id then (s.get? id).map fun n => { n with path := path } else s.get? j := by
  rw [reenter, get?_modifyNode, get?_addToIndex, get?_addToIndex, get?_removeFromIndex,
    get?_removeFromIndex]

theorem Indexes.reenter {u : Store} {entry : NodeId → Option (String × String)}
    (h : u.Indexes entry) {id : NodeId} {oldName oldPath name path : String}
    (hid : entry id = some (oldName, oldPath)) (hfree : ∀ j, j ≠ id → entry j ≠ some (name, path)) :
    (u.reenter id oldName oldPath name path).Indexes
      (Function.update entry id (some (name, path))) := by
  have hremoved := h.removeFromIndex hid
  have hfree' : ∀ j, Function.update entry id none j ≠ some (name, path) := by
    intro j
    by_cases hj : j = id
    · simp [hj]
    · rw [Function.update_of_ne hj]
      exact hfree j hj
  have hadded := hremoved.addToIndex (Function.update_self ..) hfree'
  rw [Function.update_idem] at hadded
  exact hadded.of_index_eq rfl

theorem TracksFree.reenter {u : Store} (h : u.TracksFree) (id : NodeId)
    (oldName oldPath name path : String) :
    (u.reenter id oldName oldPath name path).TracksFree := by
  have hremoved : ((u.removeFromIndex oldName oldPath).addToIndex name path id).TracksFree :=
    h.of_eq (nodes_removeFromIndex ..) (free_removeFromIndex ..)
  exact hremoved.modifyNode id _

namespace Renamable

variable {s u : Store} {above : List String} {parent target : NodeId} {oldName newName : String}
  {done : List NodeId}

/-- The path that a node gets when its parent has been given its new path. -/
theorem repath_path (h : s.Renamable above parent target oldName newName)
    (hr : Renaming s target above.length newName done u)
    (hdone : ∀ j ∈ done, s.Below target j) {id : NodeId} {n : Node} (hb : s.Below target id)
    (hn : s.get? id = some n)
    (hfirst : id = target ∨ ∃ p k, p ∈ done ∧ s.get? p = some k ∧ id ∈ k.children) :
    childPath (((n.parent.bind u.get?).map (·.path)).getD "")
      (if id = target then newName else n.name) = Path.withName above.length newName n.path := by
  by_cases hid : id = target
  · subst hid
    obtain ⟨p, m, hp, hmem, _⟩ := h.child
    have hpar := h.coherent.tree.parent_of_mem_children hp hmem hn
    have hparent : parent ∉ done := fun hd => h.not_below_parent (hdone _ hd)
    rw [hpar, Option.bind_some, hr.nodes, hp, if_pos rfl, h.withName_target hp hn]
    simp [hparent]
  · obtain ⟨p, k, hp, hk, hmem⟩ := hfirst.resolve_left hid
    have hpar := h.coherent.tree.parent_of_mem_children hk hmem hn
    rw [hpar, Option.bind_some, hr.nodes, hk, if_neg hid, h.withName_child (hdone p hp) hk hmem hn]
    simp [hp, renamedNode]

theorem repath (h : s.Renamable above parent target oldName newName)
    (hr : Renaming s target above.length newName done u)
    (hdone : ∀ j ∈ done, s.Below target j) {id : NodeId} {n : Node} (hid : id ∉ done)
    (hb : s.Below target id) (hn : s.get? id = some n)
    (hfirst : id = target ∨ ∃ p k, p ∈ done ∧ s.get? p = some k ∧ id ∈ k.children) :
    Renaming s target above.length newName (done ++ [id]) (u.repath id n.name) := by
  let name := if id = target then newName else n.name
  let path := Path.withName above.length newName n.path
  have hu : u.get? id = some { n with name := name } := by
    rw [hr.nodes, hn, Option.map_some, if_neg hid]
  have heq : u.repath id n.name = u.reenter id n.name n.path name path := by
    rw [repath_eq n.name hu]
    congr 1
    exact h.repath_path hr hdone hb hn hfirst
  have hget : ∀ j, (u.repath id n.name).get? j =
      if j = id then some { n with name := name, path := path } else u.get? j := by
    intro j
    rw [heq, get?_reenter, hu]
    rfl
  have hroot := h.ne_root_of_below hb
  refine ⟨?_, ?_, ?_⟩
  · intro j
    rw [hget]
    by_cases hj : j = id
    · subst hj
      simp [hn, renamedNode, name, path]
    · rw [if_neg hj, hr.nodes]
      simp [hj]
  · have hentry : (fun j => if j ∈ done ++ [id] then (u.repath id n.name).entry j
        else s.entry j) = Function.update (fun j => if j ∈ done then u.entry j else s.entry j) id
          (some (name, path)) := by
      funext j
      by_cases hj : j = id
      · subst hj
        simp [entry, hget, hroot]
      · rw [Function.update_of_ne hj]
        simp [entry, hget, hj]
    rw [hentry, heq]
    apply hr.indexes.reenter
    · rw [if_neg hid]
      exact entry_eq_some_iff.mpr ⟨hroot, n, hn, rfl, rfl⟩
    · intro j hj he
      split at he
      · next hjd =>
        obtain ⟨_, m, hm, _, hmp⟩ := entry_eq_some_iff.mp he
        rw [hr.nodes, Option.map_eq_some_iff] at hm
        obtain ⟨k, hk, rfl⟩ := hm
        rw [if_pos hjd] at hmp
        exact hj (h.withName_inj (hdone j hjd) hk hb hn hmp)
      · obtain ⟨_, m, hm, _, hmp⟩ := entry_eq_some_iff.mp he
        exact h.path_fresh hb hn hm hmp
  · rw [heq]
    exact hr.tracksFree.reenter ..

theorem repathAll (h : s.Renamable above parent target oldName newName)
    {entries : List (NodeId × Node)} (hr : Renaming s target above.length newName done u)
    (hbelow : ∀ id ∈ done ++ entries.map Prod.fst, s.Below target id)
    (hnodup : (done ++ entries.map Prod.fst).Nodup)
    (hlive : ∀ entry ∈ entries, s.get? entry.1 = some entry.2)
    (hfirst : ParentsFirst s target done (entries.map Prod.fst)) :
    Renaming s target above.length newName (done ++ entries.map Prod.fst)
      (entries.foldl (fun u entry => u.repath entry.1 entry.2.name) u) := by
  induction entries generalizing done u with
  | nil => simpa using hr
  | cons entry entries ih =>
    obtain ⟨id, n⟩ := entry
    have hid : id ∉ done := fun hd =>
      (List.nodup_append.mp hnodup).2.2 id hd id (by simp) rfl
    have hstep := h.repath hr (fun j hj => hbelow j (List.mem_append_left _ hj)) hid
      (hbelow id (by simp)) (hlive _ List.mem_cons_self) hfirst.1
    have hlist : done ++ ((id, n) :: entries).map Prod.fst =
        done ++ [id] ++ entries.map Prod.fst := by simp
    rw [hlist] at hbelow hnodup ⊢
    exact ih hstep hbelow hnodup (fun e he => hlive e (List.mem_cons_of_mem _ he)) hfirst.2

theorem renaming_start (h : s.Renamable above parent target oldName newName) :
    Renaming s target above.length newName []
      (s.modifyNode target fun node => { node with name := newName }) := by
  refine ⟨?_, ?_, h.coherent.tracksFree.modifyNode target _⟩
  · intro j
    rw [get?_modifyNode]
    by_cases hj : j = target <;> simp [hj]
  · simp only [List.not_mem_nil, ↓reduceIte]
    exact h.coherent.indexes.of_index_eq rfl

/-- What a renaming does that is not refused. -/
theorem renameChild (h : s.Renamable above parent target oldName newName)
    (hne : oldName ≠ newName) : ∃ t, s.renameChild parent oldName newName = .ok (t, true) ∧
      s.Renamed target above.length newName t ∧ Coherent t := by
  obtain ⟨p, n, hp, hmem, hn, rfl⟩ := h.child
  have hchild := h.coherent.child?_iff.mpr ⟨p, n, hp, hmem, hn, rfl⟩
  have hv := h.coherent.visits hn
  obtain ⟨below, hcons⟩ := h.coherent.visit_eq_cons hn
  have hend := h.repathAll h.renaming_start (fun id hid => (hv.mem_iff id).mp (by simpa using hid))
    (by simpa using hv.nodup) hv.live hv.parentsFirst
  rw [List.nil_append] at hend
  let t := (s.modifyNode target fun node => { node with name := newName }).repathAll n.name
    (s.visit (fun _ _ => true) target)
  have ht : t = (s.visit (fun _ _ => true) target).foldl
      (fun u entry => u.repath entry.1 entry.2.name)
      (s.modifyNode target fun node => { node with name := newName }) := by
    rw [hcons]
    simp only [t, hcons, Store.repathAll, List.foldl_cons]
  rw [← ht] at hend
  have hmoved : s.Renamed target above.length newName t := by
    refine ⟨?_, ?_⟩
    · intro j hj
      simp only [hend.nodes, (hv.mem_iff j).mpr hj, ↓reduceIte]
    · intro j hj
      have hjt : j ≠ target := fun he => hj (he ▸ .self)
      simp [hend.nodes, mt (hv.mem_iff j).mp hj, hjt]
  refine ⟨t, ?_, hmoved, h.isTree hmoved, ?_, hend.tracksFree⟩
  · simp [Store.renameChild, h.valid, hchild, hne, h.free, t]
  · -- the nodes without a new path are entered as they are, too
    have hentry : t.entry = fun j =>
        if j ∈ (s.visit (fun _ _ => true) target).map Prod.fst then t.entry j else s.entry j := by
      funext j
      split
      · rfl
      · next hj =>
        rw [entry, entry, hmoved.kept j (mt (hv.mem_iff j).mpr hj)]
    rw [hentry]
    exact hend.indexes

end Renamable

theorem renameChild_of_invalid {s : Store} {newName : String} (hvalid : isNodeName newName = false)
    (parent : NodeId) (oldName : String) :
    s.renameChild parent oldName newName = .error (.invalidNodeName newName) := by
  simp [renameChild, hvalid]

theorem renameChild_of_missing {s : Store} {parent : NodeId} {oldName newName : String}
    (hvalid : isNodeName newName = true) (hmissing : s.child? parent oldName = none) :
    s.renameChild parent oldName newName = .ok (s, false) := by
  simp [renameChild, hvalid, hmissing]

theorem renameChild_of_same {s : Store} {parent c : NodeId} {name : String}
    (hvalid : isNodeName name = true) (hchild : s.child? parent name = some c) :
    s.renameChild parent name name = .ok (s, true) := by
  simp [renameChild, hvalid, hchild]

theorem renameChild_of_taken {s : Store} {parent c other : NodeId} {oldName newName : String}
    (hvalid : isNodeName newName = true) (hchild : s.child? parent oldName = some c)
    (hne : oldName ≠ newName) (htaken : s.child? parent newName = some other) :
    s.renameChild parent oldName newName = .ok (s, false) := by
  simp [renameChild, hvalid, hchild, hne, htaken]

/-- A renaming is refused or changes nothing, unless it gives a child a name that is new and
free. -/
theorem Coherent.renameChild_cases {s : Store} (h : Coherent s) (parent : NodeId)
    (oldName newName : String) :
    (s.renameChild parent oldName newName = .error (.invalidNodeName newName) ∧
      isNodeName newName = false) ∨
    (∃ accepted, s.renameChild parent oldName newName = .ok (s, accepted)) ∨
    ∃ above target t, s.Renamable above parent target oldName newName ∧ oldName ≠ newName ∧
      s.renameChild parent oldName newName = .ok (t, true) ∧
      s.Renamed target above.length newName t ∧ Coherent t := by
  cases hvalid : isNodeName newName with
  | false => exact .inl ⟨renameChild_of_invalid hvalid parent oldName, rfl⟩
  | true =>
    right
    cases hchild : s.child? parent oldName with
    | none => exact .inl ⟨false, renameChild_of_missing hvalid hchild⟩
    | some target =>
      by_cases hsame : oldName = newName
      · subst hsame
        exact .inl ⟨true, renameChild_of_same hvalid hchild⟩
      · cases hnew : s.child? parent newName with
        | some other => exact .inl ⟨false, renameChild_of_taken hvalid hchild hsame hnew⟩
        | none =>
          obtain ⟨p, n, hp, hmem, hn, hname⟩ := h.child?_iff.mp hchild
          obtain ⟨above, hl⟩ := h.exists_leads hp
          have hr : s.Renamable above parent target oldName newName :=
            ⟨h, hl, ⟨p, n, hp, hmem, hn, hname⟩, hvalid, hnew⟩
          obtain ⟨t, hok, hmoved, ht⟩ := hr.renameChild hsame
          exact .inr ⟨above, target, t, hr, hsame, hok, hmoved, ht⟩

theorem Coherent.renameChild {s t : Store} (h : Coherent s) {parent : NodeId}
    {oldName newName : String} {accepted : Bool}
    (hok : s.renameChild parent oldName newName = .ok (t, accepted)) : Coherent t := by
  rcases h.renameChild_cases parent oldName newName with
    ⟨he, _⟩ | ⟨_, he⟩ | ⟨_, _, u, _, _, he, _, hu⟩
  · rw [he] at hok
    cases hok
  · rw [he] at hok
    cases hok
    exact h
  · rw [he] at hok
    cases hok
    exact hu

end Store

end TreeDatabase
