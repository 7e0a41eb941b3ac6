import TreeDatabase.Proofs.Operation.Targets
import TreeDatabase.Proofs.Store.Listing

/-!
# What a reading lists

A reading lists the subtrees in which it starts one after the other, each by recursion on the tree,
and leaves out what lies below a node that has children but does not pass the filter. With a path it
starts in nodes of one depth, so that no two of the subtrees have a node in common.
-/

namespace TreeDatabase

open Store

namespace Statement

variable {s : Statement} {store : Store}

/-! ## Listings -/

/-- Whether a node is left out of a listing with all that lies below it: it has children, and there
is a filter that accepts no child of it and no child of these. -/
def LeavesOut (s : Statement) (store : Store) (n : Node) : Prop :=
  n.children ≠ [] ∧ s.filter.fields ≠ [] ∧ ∀ c ∈ n.children, ∀ m, store.get? c = some m →
    s.filter.accepts m.name m.value = false ∧
      ∀ d ∈ m.children, ∀ k, store.get? d = some k → s.filter.accepts k.name k.value = false

/-- What a listing of subtrees is: a node that is not left out, and then the listings of its
children in order. -/
structure IsListing (s : Statement) (store : Store) (listing : NodeId → List NodeId) : Prop where
  pruned : ∀ id n, store.get? id = some n → s.LeavesOut store n → listing id = []
  listed : ∀ id n, store.get? id = some n → ¬ s.LeavesOut store n →
    listing id = id :: n.children.flatMap listing

/-- There is no more than one listing of a node. -/
theorem IsListing.unique {listing other : NodeId → List NodeId} (hl : s.IsListing store listing)
    (ho : s.IsListing store other) (h : store.Coherent) {id : NodeId} {n : Node}
    (hn : store.get? id = some n) : listing id = other id := by
  refine h.induction (motive := fun id => listing id = other id) (fun id n hn ih => ?_) hn
  by_cases hout : s.LeavesOut store n
  · rw [hl.pruned id n hn hout, ho.pruned id n hn hout]
  · rw [hl.listed id n hn hout, ho.listed id n hn hout, List.flatMap_congr ih]

/-- The nodes that a reading lists in a subtree. -/
def listing (s : Statement) (store : Store) (id : NodeId) : List NodeId :=
  (store.visit (s.lists store) id).map Prod.fst

theorem lists_eq_false_iff (h : store.Coherent) {id : NodeId} {n : Node}
    (hn : store.get? id = some n) : s.lists store id n = false ↔ s.LeavesOut store n := by
  rw [lists, Node.isLeaf, Store.passes, LeavesOut, children_of_get? hn, Filter.isEmpty]
  simp only [Bool.or_eq_false_iff, List.isEmpty_eq_false_iff, List.any_eq_false, ne_eq]
  refine and_congr_right fun _ => and_congr_right fun _ => forall₂_congr fun c hc => ?_
  obtain ⟨m, hm, _⟩ := h.tree.child hn hc
  rw [hm, Option.any_some, children_of_get? hm, Bool.not_eq_true, Bool.or_eq_false_iff,
    List.any_eq_false]
  simp only [Option.some.injEq, forall_eq', Bool.not_eq_true, Option.any_eq_false]

theorem isListing (s : Statement) (h : store.Coherent) : s.IsListing store (s.listing store) := by
  constructor
  · intro id n hn hout
    rw [listing, h.visit_eq hn, (lists_eq_false_iff h hn).mpr hout]
    rfl
  · intro id n hn hout
    have hlists : s.lists store id n = true := by
      rw [← Bool.not_eq_false, lists_eq_false_iff h hn]
      exact hout
    rw [listing, h.visit_eq hn, if_pos hlists, List.map_cons, List.map_flatMap]
    rfl

/-- Without a filter the whole subtree is listed. -/
theorem mem_listing_of_below (h : store.Coherent) (hfilter : s.filter.fields = []) {id : NodeId}
    {n : Node} (hn : store.get? id = some n) {c : NodeId} (hb : store.Below id c) :
    c ∈ s.listing store id := by
  have hall : s.lists store = fun _ _ => true := by
    funext id n
    simp [lists, Store.passes, Filter.isEmpty, hfilter]
  rw [listing, hall]
  exact ((h.visits hn).mem_iff c).mpr hb

/-! ## Where a reading starts -/

/-- Where a reading starts in a target: at those of its children that have a name which it names,
name after name, or at the target itself when it names none. -/
def startsIn (s : Statement) (store : Store) (target : NodeId) : List NodeId :=
  if s.childNames = [] then [target]
  else s.childNames.filterMap fun name =>
    (store.children target).find? fun c => (store.get? c).any (·.name == name)

/-- The nodes in which a reading starts, target after target. -/
def starts (s : Statement) (store : Store) : List NodeId :=
  (s.allTargets store).flatMap (s.startsIn store)

theorem startNodes_eq (h : store.Coherent) (target : NodeId) :
    s.startNodes store target = s.startsIn store target := by
  have hnone : s.children.isEmpty = true ↔ s.childNames = [] := by
    rw [List.isEmpty_iff, childNames, List.map_eq_nil_iff]
  simp only [startNodes, startsIn, hnone]
  refine if_congr Iff.rfl rfl (List.filterMap_congr fun name _ => ?_)
  exact h.child?_eq_find? target name

theorem startsIn_cases (h : store.Coherent) {target start : NodeId}
    (hmem : start ∈ s.startsIn store target) :
    (s.childNames = [] ∧ start = target) ∨
      (s.childNames ≠ [] ∧ ∃ name, store.child? target name = some start) := by
  rw [startsIn] at hmem
  split at hmem
  · next hnone => exact .inl ⟨hnone, List.mem_singleton.mp hmem⟩
  · next hsome =>
    obtain ⟨name, _, hchild⟩ := List.mem_filterMap.mp hmem
    exact .inr ⟨hsome, name, (h.child?_eq_find? target name).trans hchild⟩

theorem nodup_startsIn (h : store.Coherent) (hnames : s.childNames.Nodup) (target : NodeId) :
    (s.startsIn store target).Nodup := by
  rw [startsIn]
  split
  · exact List.nodup_singleton _
  · simp only [← h.child?_eq_find?]
    exact hnames.filterMap fun _ _ _ hname hname' => (h.child?_inj hname hname').2

theorem startsIn_inj (h : store.Coherent) {a b start : NodeId}
    (ha : start ∈ s.startsIn store a) (hb : start ∈ s.startsIn store b) : a = b := by
  rcases startsIn_cases h ha with ⟨hnone, rfl⟩ | ⟨hsome, _, hchild⟩
  · rcases startsIn_cases h hb with ⟨_, heq⟩ | ⟨hsome, _⟩
    · exact heq
    · exact absurd hnone hsome
  · rcases startsIn_cases h hb with ⟨hnone, _⟩ | ⟨_, _, hchild'⟩
    · exact absurd hnone hsome
    · exact (h.child?_inj hchild hchild').1

/-- No reading starts twice in one node, when the children that it names have different names. -/
theorem nodup_starts (h : store.Coherent) (hnames : s.childNames.Nodup) :
    (s.starts store).Nodup := by
  rw [starts, List.nodup_flatMap]
  exact ⟨fun target _ => nodup_startsIn h hnames target,
    (s.nodup_allTargets h).imp fun hne _ ha hb => hne (startsIn_inj h ha hb)⟩

/-- A reading starts in children of nodes. -/
theorem exists_parent_of_mem_starts (h : store.Coherent) {start : NodeId}
    (hmem : start ∈ s.starts store) : ∃ p n, store.get? p = some n ∧ start ∈ n.children := by
  obtain ⟨target, htarget, hstart⟩ := List.mem_flatMap.mp hmem
  rcases startsIn_cases h hstart with ⟨_, rfl⟩ | ⟨_, name, hchild⟩
  · obtain ⟨entry, _, htarget⟩ := mem_allTargets_iff.mp htarget
    exact ⟨entry.2, mem_children_iff.mp (mem_children_of_mem_targets h htarget)⟩
  · obtain ⟨n, _, hn, hc, _⟩ := h.child?_iff.mp hchild
    exact ⟨target, n, hn, hc⟩

theorem live_of_mem_starts (h : store.Coherent) {start : NodeId} (hmem : start ∈ s.starts store) :
    ∃ n, store.get? start = some n := by
  obtain ⟨p, m, hm, hc⟩ := exists_parent_of_mem_starts h hmem
  obtain ⟨n, hn, _⟩ := h.tree.child hm hc
  exact ⟨n, hn⟩

/-- With a path a reading starts in nodes of one depth. -/
theorem exists_depth_of_starts (h : store.Coherent) (hverb : s.verb ≠ .write)
    (hparents : s.parents ≠ []) : ∃ depth, ∀ start ∈ s.starts store,
      ∃ names, store.Leads names start ∧ names.length = depth := by
  have htargets : ∀ target ∈ s.allTargets store, ∃ names, store.Leads names target ∧
      names.length = (behindRoot s.parents ++ [s.selectedSegment]).length := fun target htarget =>
    leads_of_finds ((mem_allTargets_iff_finds h hverb hparents).mp htarget).2
  by_cases hnone : s.childNames = []
  · refine ⟨(behindRoot s.parents ++ [s.selectedSegment]).length, fun start hstart => ?_⟩
    obtain ⟨target, htarget, hstart⟩ := List.mem_flatMap.mp hstart
    rcases startsIn_cases h hstart with ⟨_, rfl⟩ | ⟨hsome, _⟩
    · exact htargets start htarget
    · exact absurd hnone hsome
  · refine ⟨(behindRoot s.parents ++ [s.selectedSegment]).length + 1, fun start hstart => ?_⟩
    obtain ⟨target, htarget, hstart⟩ := List.mem_flatMap.mp hstart
    rcases startsIn_cases h hstart with ⟨hnil, _⟩ | ⟨_, name, hchild⟩
    · exact absurd hnil hnone
    · obtain ⟨names, hl, hlength⟩ := htargets target htarget
      refine ⟨names ++ [name], h.leads_child_iff.mpr ⟨target, hl, hchild⟩, ?_⟩
      rw [List.length_append, hlength, List.length_singleton]

/-- With a path no node is listed twice: subtrees of one depth have no node in common. -/
theorem nodup_listing (h : store.Coherent) (hverb : s.verb ≠ .write) (hparents : s.parents ≠ [])
    (hnames : s.childNames.Nodup) : ((s.starts store).flatMap (s.listing store)).Nodup := by
  obtain ⟨depth, hdepth⟩ := exists_depth_of_starts h hverb hparents
  rw [List.nodup_flatMap]
  constructor
  · intro start hstart
    obtain ⟨n, hn⟩ := live_of_mem_starts h hstart
    exact h.nodup_visit (s.lists store) hn
  · refine (nodup_starts h hnames).imp_of_mem fun {a b} ha hb hne id hida hidb => hne ?_
    obtain ⟨n, hn⟩ := live_of_mem_starts h ha
    obtain ⟨m, hm⟩ := live_of_mem_starts h hb
    obtain ⟨names, hl, hlength⟩ := hdepth a ha
    obtain ⟨names', hl', hlength'⟩ := hdepth b hb
    exact h.eq_of_below hl hl' (hlength.trans hlength'.symm) (h.below_of_mem_visit hn hida)
      (h.below_of_mem_visit hm hidb)

/-! ## The answer -/

/-- What a reading answers, given the listing of subtrees: it lists those in which it starts, for
its candidate parents in the order of their paths and the targets below each in the order of the
children. -/
structure ListsTargets (s : Statement) (store : Store) (listing : NodeId → List NodeId)
    (response : Response) : Prop where
  recursive : s.IsListing store listing
  ascending : ((s.candidateParents store).map Prod.fst).Pairwise (· < ·)
  paths : ∀ entry ∈ s.candidateParents store, ∃ n, store.get? entry.2 = some n ∧ n.path = entry.1
  inOrder : ∀ parent, (s.targets store parent).Sublist (store.children parent)
  lines : List.Forall₂
    (fun id line => ∃ n, store.get? id = some n ∧ line = n.path ++ ":" ++ n.value)
    ((s.starts store).flatMap listing) response.lines
  count : response.count = response.lines.length
  nodup : s.parents ≠ [] → ((s.starts store).flatMap listing).Nodup
  /-- Without a filter nothing below a start is left out. -/
  complete : s.filter.fields = [] → ∀ start ∈ s.starts store, ∀ id, store.Below start id →
    id ∈ listing start

/-- The candidate parents have different paths, so that none comes beside another. -/
theorem pairwise_paths_candidateParents (s : Statement) (h : store.Coherent) :
    ((s.candidateParents store).map Prod.fst).Pairwise (· < ·) := by
  rw [List.pairwise_map]
  have hnodup := s.nodup_candidateParents h
  rw [List.nodup_iff_pairwise_ne, List.pairwise_map] at hnodup
  refine ((pairwise_candidateParents s store).and hnodup).imp_of_mem ?_
  rintro a b ha hb ⟨hle, hne⟩
  refine Std.lt_of_le_of_ne hle fun heq => hne ?_
  obtain ⟨n, hn, hpath⟩ := live_of_mem_parentNodes h (mem_candidateParents_iff.mp ha).1
  obtain ⟨m, hm, hpath'⟩ := live_of_mem_parentNodes h (mem_candidateParents_iff.mp hb).1
  exact h.path_inj hn hm (hpath.trans (heq.trans hpath'.symm))

theorem read_eq_counted (s : Statement) (h : store.Coherent) :
    let nodes := (s.starts store).flatMap (store.visit (s.lists store))
    s.read store = .counted .read (nodes.map fun entry => readLine entry.2) nodes.length false := by
  intro nodes
  have hnodes : nodes = (s.candidateParents store).flatMap fun entry =>
      s.readBelow store entry.2 := by
    simp only [nodes, starts, allTargets, readBelow, List.flatMap_assoc, startNodes_eq h]
  rw [hnodes]
  rfl

theorem read_listsTargets (h : store.Coherent) (hverb : s.verb = .read)
    (hnames : s.childNames.Nodup) : s.ListsTargets store (s.listing store) (s.read store) := by
  have hwrite : s.verb ≠ .write := by simp [hverb]
  have hread := s.read_eq_counted h
  refine ⟨s.isListing h, s.pairwise_paths_candidateParents h,
    fun entry hentry => live_of_mem_parentNodes h (mem_candidateParents_iff.mp hentry).1,
    s.targets_sublist h, ?_, ?_, fun hparents => nodup_listing h hwrite hparents hnames, ?_⟩
  · have hlisted : (s.starts store).flatMap (s.listing store) =
        ((s.starts store).flatMap (store.visit (s.lists store))).map Prod.fst := by
      rw [List.map_flatMap]
      rfl
    rw [hread, hlisted]
    refine List.forall₂_map_left_iff.mpr (List.forall₂_map_right_iff.mpr
      (List.forall₂_same.mpr fun entry hentry => ⟨entry.2, ?_, rfl⟩))
    obtain ⟨start, hstart, hentry⟩ := List.mem_flatMap.mp hentry
    obtain ⟨n, hn⟩ := live_of_mem_starts h hstart
    exact h.live_of_mem_visit hn hentry
  · rw [hread]
    exact (List.length_map _).symm
  · intro hfilter start hstart id hb
    obtain ⟨n, hn⟩ := live_of_mem_starts h hstart
    exact mem_listing_of_below h hfilter hn hb

end Statement

end TreeDatabase
