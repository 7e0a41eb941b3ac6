import TreeDatabase.Proofs.Store.Slots

/-!
# Coherence

A store keeps one tree four times over: in the lists of children, in the links to the parents, in
the paths of the nodes and in the index. `Coherent` says what it takes for these to agree, in terms
of neighbouring nodes only. That every node is reached from the root, and that its path is made of
the names on the way, follows: a path is longer than the path of the parent.
-/

namespace TreeDatabase

namespace Store

/-- Nodes behind handles make a tree with the root handle on top. -/
structure IsTree (node? : NodeId → Option Node) : Prop where
  root : ∃ n, node? root = some n ∧ n.name = "" ∧ n.path = "" ∧ n.parent = none
  above : ∀ {id n}, node? id = some n → id ≠ Store.root → ∃ p m, n.parent = some p ∧
    node? p = some m ∧ id ∈ m.children ∧ n.path = childPath m.path n.name
  child : ∀ {id n c}, node? id = some n → c ∈ n.children → ∃ m, node? c = some m ∧
    m.parent = some id
  nodup : ∀ {id n}, node? id = some n → n.children.Nodup
  name : ∀ {id n}, node? id = some n → id ≠ Store.root → isNodeName n.name = true

/-- The name and path under which a node has to be entered in the index. -/
def entry (s : Store) (id : NodeId) : Option (String × String) :=
  if id = root then none else (s.get? id).map fun n => (n.name, n.path)

structure Coherent (s : Store) : Prop where
  tree : IsTree s.get?
  indexes : s.Indexes s.entry
  tracksFree : s.TracksFree

/-- A node and what lies below it, by the lists of children. -/
inductive Below (s : Store) (top : NodeId) : NodeId → Prop
  | self : Below s top top
  | child {id c : NodeId} {n : Node} (above : Below s top id) (live : s.get? id = some n)
      (member : c ∈ n.children) : Below s top c

/-- Names lead from the root to a node, by the lists of children. -/
inductive Leads (s : Store) : List String → NodeId → Prop
  | root : Leads s [] root
  | child {names : List String} {id c : NodeId} {n m : Node} (above : Leads s names id)
      (live : s.get? id = some n) (member : c ∈ n.children) (node : s.get? c = some m) :
      Leads s (names ++ [m.name]) c

theorem entry_eq_some_iff {s : Store} {id : NodeId} {name path : String} :
    s.entry id = some (name, path) ↔
      id ≠ root ∧ ∃ n, s.get? id = some n ∧ n.name = name ∧ n.path = path := by
  rw [entry]
  split
  · next h => simp [h]
  · next h => simp [h]

namespace Leads

variable {s : Store} {above below : List String} {id top : NodeId}

theorem below_root {names : List String} (hl : s.Leads names id) : s.Below Store.root id := by
  induction hl with
  | root => exact .self
  | child _ live member _ ih => exact ih.child live member

theorem eq_root (hl : s.Leads [] id) : id = Store.root := by
  generalize hnames : [] = names at hl
  cases hl with
  | root => rfl
  | child => simp at hnames

/-- The last of the names that lead to a node is its own, and the others lead to its parent. -/
theorem parent {name : String} (hl : s.Leads (above ++ [name]) id) :
    ∃ p n m, s.Leads above p ∧ s.get? p = some n ∧ id ∈ n.children ∧ s.get? id = some m ∧
      m.name = name := by
  generalize hnames : above ++ [name] = names at hl
  cases hl with
  | root => simp at hnames
  | child hl live member node =>
    obtain ⟨rfl, hname⟩ := List.append_inj' hnames rfl
    exact ⟨_, _, _, hl, live, member, node, (List.cons.inj hname).1.symm⟩

/-- The first names that lead to a node lead to one above it. -/
theorem split (hl : s.Leads (above ++ below) id) : ∃ top, s.Leads above top ∧ s.Below top id := by
  generalize hnames : above ++ below = names at hl
  induction hl generalizing below with
  | root =>
    obtain ⟨rfl, _⟩ := List.append_eq_nil_iff.mp hnames
    exact ⟨_, .root, .self⟩
  | @child names i c n m hl live member node ih =>
    rcases List.append_eq_append_iff.mp hnames with ⟨ends, hends, hbelow⟩ | ⟨ends, habove, hends⟩
    · obtain ⟨top, ht, hb⟩ := ih hends.symm
      exact ⟨top, ht, hb.child live member⟩
    · cases ends with
      | nil =>
        have hall : above ++ [] = names := by simpa using habove
        obtain ⟨top, ht, hb⟩ := ih hall
        exact ⟨top, by simpa [habove] using ht, hb.child live member⟩
      | cons name ends =>
        simp only [List.cons_append, List.cons.injEq, List.nil_eq, List.append_eq_nil_iff] at hends
        obtain ⟨rfl, rfl, rfl⟩ := hends
        exact ⟨c, habove ▸ hl.child live member node, .self⟩

end Leads

namespace IsTree

variable {node? : NodeId → Option Node}

theorem ne_root_of_mem_children (h : IsTree node?) {id c : NodeId} {n : Node}
    (hn : node? id = some n) (hc : c ∈ n.children) : c ≠ Store.root := by
  rintro rfl
  obtain ⟨r, hr, _, _, hp⟩ := h.root
  obtain ⟨m, hm, hpar⟩ := h.child hn hc
  rw [hr] at hm
  cases hm
  rw [hp] at hpar
  cases hpar

theorem parent_of_mem_children (h : IsTree node?) {id c : NodeId} {n m : Node}
    (hn : node? id = some n) (hc : c ∈ n.children) (hm : node? c = some m) :
    m.parent = some id := by
  obtain ⟨m', hm', hparent⟩ := h.child hn hc
  rw [hm] at hm'
  cases hm'
  exact hparent

theorem path_of_mem_children (h : IsTree node?) {id c : NodeId} {n m : Node}
    (hn : node? id = some n) (hc : c ∈ n.children) (hm : node? c = some m) :
    m.path = childPath n.path m.name := by
  obtain ⟨p, k, hp, hk, _, hpath⟩ := h.above hm (h.ne_root_of_mem_children hn hc)
  rw [h.parent_of_mem_children hn hc hm] at hp
  cases hp
  rw [hn] at hk
  cases hk
  exact hpath

theorem name_of_mem_children (h : IsTree node?) {id c : NodeId} {n m : Node}
    (hn : node? id = some n) (hc : c ∈ n.children) (hm : node? c = some m) :
    isNodeName m.name = true := h.name hm (h.ne_root_of_mem_children hn hc)

theorem length_path_lt (h : IsTree node?) {id c : NodeId} {n m : Node}
    (hn : node? id = some n) (hc : c ∈ n.children) (hm : node? c = some m) :
    n.path.toList.length < m.path.toList.length := by
  rw [h.path_of_mem_children hn hc hm]
  exact length_lt_childPath (h.name_of_mem_children hn hc hm) _

theorem path_eq_blank_iff (h : IsTree node?) {id : NodeId} {n : Node} (hn : node? id = some n) :
    n.path = "" ↔ id = Store.root := by
  constructor
  · intro hp
    by_contra hid
    obtain ⟨p, m, _, _, _, hpath⟩ := h.above hn hid
    exact childPath_ne_blank (h.name hn hid) m.path (hpath ▸ hp)
  · rintro rfl
    obtain ⟨r, hr, _, hp, _⟩ := h.root
    rw [hn] at hr
    cases hr
    exact hp

theorem last_path (h : IsTree node?) {id : NodeId} {n : Node} (hn : node? id = some n)
    (hid : id ≠ Store.root) : Path.last n.path = n.name := by
  obtain ⟨p, m, _, _, _, hpath⟩ := h.above hn hid
  rw [hpath, Path.last_childPath (h.name hn hid)]

theorem parent_unique (h : IsTree node?) {i j c : NodeId} {n m : Node} (hi : node? i = some n)
    (hj : node? j = some m) (hci : c ∈ n.children) (hcj : c ∈ m.children) : i = j := by
  obtain ⟨k, hk, hp⟩ := h.child hi hci
  obtain ⟨k', hk', hp'⟩ := h.child hj hcj
  rw [hk] at hk'
  cases hk'
  rw [hp] at hp'
  exact Option.some.inj hp'

end IsTree

namespace Coherent

variable {s : Store}

theorem indexed?_iff (h : Coherent s) {name path : String} {id : NodeId} :
    s.indexed? name path = some id ↔
      id ≠ root ∧ ∃ n, s.get? id = some n ∧ n.name = name ∧ n.path = path :=
  (h.indexes.indexed name path id).trans entry_eq_some_iff

/-- Different nodes have different paths. -/
theorem path_inj (h : Coherent s) {i j : NodeId} {n m : Node} (hi : s.get? i = some n)
    (hj : s.get? j = some m) (hp : n.path = m.path) : i = j := by
  by_cases hir : i = root
  · have hn := (h.tree.path_eq_blank_iff hi).mpr hir
    rw [hir, (h.tree.path_eq_blank_iff hj).mp (hp ▸ hn)]
  · have hjr : j ≠ root := by
      intro hjr
      have hm := (h.tree.path_eq_blank_iff hj).mpr hjr
      exact hir ((h.tree.path_eq_blank_iff hi).mp (hp ▸ hm))
    have hname : n.name = m.name := by
      rw [← h.tree.last_path hi hir, hp, h.tree.last_path hj hjr]
    have hi' := h.indexed?_iff.mpr ⟨hir, n, hi, rfl, rfl⟩
    have hj' := h.indexed?_iff.mpr ⟨hjr, m, hj, rfl, rfl⟩
    rw [hname, hp, hj'] at hi'
    exact (Option.some.inj hi').symm

theorem child?_iff (h : Coherent s) {parent id : NodeId} {name : String} :
    s.child? parent name = some id ↔ ∃ m n, s.get? parent = some m ∧ id ∈ m.children ∧
      s.get? id = some n ∧ n.name = name := by
  rw [child?, Option.bind_eq_some_iff]
  constructor
  · rintro ⟨m, hm, hi⟩
    obtain ⟨hid, n, hn, rfl, hpath⟩ := h.indexed?_iff.mp hi
    obtain ⟨p, k, _, hk, hmem, hpath'⟩ := h.tree.above hn hid
    have hv := h.tree.name hn hid
    obtain rfl := h.path_inj hk hm ((childPath_inj hv hv).mp (hpath' ▸ hpath)).1
    rw [hm] at hk
    cases hk
    exact ⟨m, n, hm, hmem, hn, rfl⟩
  · rintro ⟨m, n, hm, hmem, hn, rfl⟩
    exact ⟨m, hm, h.indexed?_iff.mpr ⟨h.tree.ne_root_of_mem_children hm hmem, n, hn, rfl,
      h.tree.path_of_mem_children hm hmem hn⟩⟩

/-- The child of a name is the node of that name that points back to the parent. -/
theorem child?_iff_parent (h : Coherent s) {parent id : NodeId} {name : String} :
    s.child? parent name = some id ↔
      ∃ n, s.get? id = some n ∧ n.parent = some parent ∧ n.name = name := by
  rw [h.child?_iff]
  constructor
  · rintro ⟨m, n, hm, hmem, hn, hname⟩
    exact ⟨n, hn, h.tree.parent_of_mem_children hm hmem hn, hname⟩
  · rintro ⟨n, hn, hpar, hname⟩
    have hid : id ≠ root := by
      rintro rfl
      obtain ⟨r, hr, _, _, hnone⟩ := h.tree.root
      rw [hn] at hr
      cases hr
      rw [hnone] at hpar
      cases hpar
    obtain ⟨q, m, hq, hm, hmem, _⟩ := h.tree.above hn hid
    rw [hpar] at hq
    cases hq
    exact ⟨m, n, hm, hmem, hn, hname⟩

/-- A node is the child of one name below one parent. -/
theorem child?_inj (h : Coherent s) {p q c : NodeId} {name other : String}
    (hp : s.child? p name = some c) (hq : s.child? q other = some c) : p = q ∧ name = other := by
  obtain ⟨n, hn, hparent, hname⟩ := h.child?_iff_parent.mp hp
  obtain ⟨m, hm, hparent', hname'⟩ := h.child?_iff_parent.mp hq
  rw [hn] at hm
  cases hm
  rw [hparent] at hparent'
  exact ⟨Option.some.inj hparent', hname.symm.trans hname'⟩

theorem sibling_inj (h : Coherent s) {parent i j : NodeId} {p n m : Node}
    (hp : s.get? parent = some p) (hi : i ∈ p.children) (hj : j ∈ p.children)
    (hn : s.get? i = some n) (hm : s.get? j = some m) (hname : n.name = m.name) : i = j := by
  apply h.path_inj hn hm
  rw [h.tree.path_of_mem_children hp hi hn, h.tree.path_of_mem_children hp hj hm, hname]

theorem nodup_children (h : Coherent s) (id : NodeId) :
    (s.children id).Nodup := by
  rw [children]
  split
  · next n hn => exact h.tree.nodup hn
  · exact List.nodup_nil

theorem lookup_iff (h : Coherent s) {path : String} {id : NodeId} :
    s.lookup path = some id ↔ ∃ n, s.get? id = some n ∧ n.path = path := by
  rw [lookup]
  split
  · next hp =>
    subst hp
    constructor
    · intro he
      obtain ⟨r, hr, _, hrp, _⟩ := h.tree.root
      exact ⟨r, Option.some.inj he ▸ hr, hrp⟩
    · rintro ⟨n, hn, hp⟩
      rw [(h.tree.path_eq_blank_iff hn).mp hp]
  · next hp =>
    rw [h.indexed?_iff]
    constructor
    · rintro ⟨_, n, hn, _, hpath⟩
      exact ⟨n, hn, hpath⟩
    · rintro ⟨n, hn, rfl⟩
      have hid : id ≠ root := fun he => hp ((h.tree.path_eq_blank_iff hn).mpr he)
      exact ⟨hid, n, hn, (h.tree.last_path hn hid).symm, rfl⟩

theorem live_of_below (h : Coherent s) {top id : NodeId} {t : Node} (ht : s.get? top = some t)
    (hb : s.Below top id) : ∃ n, s.get? id = some n := by
  cases hb with
  | self => exact ⟨t, ht⟩
  | child _ live member =>
    obtain ⟨m, hm, _⟩ := h.tree.child live member
    exact ⟨m, hm⟩

/-- What lies above a child, and is not the child itself, lies above the parent. -/
theorem below_parent (h : Coherent s) {top parent id : NodeId} {n : Node}
    (hn : s.get? parent = some n) (hmem : id ∈ n.children) (hb : s.Below top id)
    (hne : top ≠ id) : s.Below top parent := by
  cases hb with
  | self => exact absurd rfl hne
  | child habove live member =>
    rw [h.tree.parent_unique live hn member hmem] at habove
    exact habove

theorem length_path_lt_of_below (h : Coherent s) {top id : NodeId} {t n : Node}
    (ht : s.get? top = some t) (hb : s.Below top id) (hn : s.get? id = some n) :
    id = top ∨ t.path.toList.length < n.path.toList.length := by
  induction hb generalizing n with
  | self => exact .inl rfl
  | @child i c k _ live member ih =>
    right
    have hlt := h.tree.length_path_lt live member hn
    rcases ih live with rfl | hk
    · rw [ht] at live
      cases live
      exact hlt
    · exact Nat.lt_trans hk hlt

theorem not_below_child (h : Coherent s) {id c : NodeId} {n : Node}
    (hn : s.get? id = some n) (hc : c ∈ n.children) : ¬ s.Below c id := by
  intro hb
  obtain ⟨m, hm, _⟩ := h.tree.child hn hc
  have hlt := h.tree.length_path_lt hn hc hm
  rcases h.length_path_lt_of_below hm hb hn with rfl | hlt'
  · rw [hn] at hm
    cases hm
    exact Nat.lt_irrefl _ hlt
  · omega

theorem root_not_below_child (h : Coherent s) {id c : NodeId} {n : Node}
    (hn : s.get? id = some n) (hc : c ∈ n.children) : ¬ s.Below c root := by
  intro hb
  cases hb with
  | self => exact h.tree.ne_root_of_mem_children hn hc rfl
  | child _ live member => exact h.tree.ne_root_of_mem_children live member rfl

/-- Every node is reached from the root, and its path is made of the names on the way. -/
theorem exists_leads (h : Coherent s) {id : NodeId} {n : Node} (hn : s.get? id = some n) :
    ∃ names, s.Leads names id := by
  induction hlen : n.path.toList.length using Nat.strongRecOn generalizing id n with
  | _ len ih =>
    subst hlen
    by_cases hid : id = root
    · exact ⟨[], hid ▸ .root⟩
    · obtain ⟨p, m, _, hm, hmem, _⟩ := h.tree.above hn hid
      obtain ⟨names, hl⟩ := ih _ (h.tree.length_path_lt hm hmem hn) hm rfl
      exact ⟨names ++ [n.name], hl.child hm hmem hn⟩

/-- The names that lead to a node are continued by names that lead to one below it. -/
theorem leads_of_below (h : Coherent s) {above : List String} {top id : NodeId}
    (hl : s.Leads above top) (hb : s.Below top id) : ∃ below, s.Leads (above ++ below) id := by
  induction hb with
  | self => exact ⟨[], by simpa using hl⟩
  | child _ live member ih =>
    obtain ⟨below, hb⟩ := ih
    obtain ⟨m, hm, _⟩ := h.tree.child live member
    exact ⟨below ++ [m.name], by simpa using hb.child live member hm⟩

theorem isNodeName_of_leads (h : Coherent s) {names : List String} {id : NodeId}
    (hl : s.Leads names id) : ∀ name ∈ names, isNodeName name = true := by
  induction hl with
  | root => simp
  | child _ live member node ih =>
    intro name hname
    rcases List.mem_append.mp hname with hname | hname
    · exact ih name hname
    · rw [List.mem_singleton.mp hname]
      exact h.tree.name_of_mem_children live member node

theorem path_of_leads (h : Coherent s) {names : List String} {id : NodeId}
    (hl : s.Leads names id) : ∃ n, s.get? id = some n ∧ n.path = Path.ofNames names := by
  induction hl with
  | root =>
    obtain ⟨r, hr, _, hp, _⟩ := h.tree.root
    exact ⟨r, hr, by rw [hp, Path.ofNames_nil]⟩
  | child above live member node ih =>
    obtain ⟨n, hn, hpath⟩ := ih
    rw [live] at hn
    cases hn
    refine ⟨_, node, ?_⟩
    rw [h.tree.path_of_mem_children live member node, hpath,
      Path.ofNames_append_singleton (h.isNodeName_of_leads above)]

theorem path_eq_of_leads (h : Coherent s) {names : List String} {id : NodeId} {n : Node}
    (hl : s.Leads names id) (hn : s.get? id = some n) : n.path = Path.ofNames names := by
  obtain ⟨m, hm, hpath⟩ := h.path_of_leads hl
  rw [hn] at hm
  cases hm
  exact hpath

theorem leads_inj (h : Coherent s) {names : List String} {i j : NodeId} (hi : s.Leads names i)
    (hj : s.Leads names j) : i = j := by
  obtain ⟨n, hn, hpath⟩ := h.path_of_leads hi
  obtain ⟨m, hm, hpath'⟩ := h.path_of_leads hj
  exact h.path_inj hn hm (hpath.trans hpath'.symm)

theorem leads_unique (h : Coherent s) {names others : List String} {id : NodeId}
    (hl : s.Leads names id) (ho : s.Leads others id) : names = others := by
  obtain ⟨n, hn, hp⟩ := h.path_of_leads hl
  have hq := h.path_eq_of_leads ho hn
  exact Path.ofNames_inj (h.isNodeName_of_leads hl) (h.isNodeName_of_leads ho) (hp ▸ hq)

theorem leads_child_iff (h : Coherent s) {names : List String} {name : String}
    {c : NodeId} : s.Leads (names ++ [name]) c ↔
      ∃ id, s.Leads names id ∧ s.child? id name = some c := by
  constructor
  · intro hl
    obtain ⟨p, n, m, hp, hn, hc, hm, hname⟩ := hl.parent
    exact ⟨p, hp, h.child?_iff.mpr ⟨n, m, hn, hc, hm, hname⟩⟩
  · rintro ⟨id, hid, hchild⟩
    obtain ⟨n, m, hn, hc, hm, rfl⟩ := h.child?_iff.mp hchild
    exact hid.child hn hc hm

theorem leads_singleton_iff (h : Coherent s) {name : String} {c : NodeId} :
    s.Leads [name] c ↔ s.child? root name = some c := by
  rw [← List.nil_append [name], h.leads_child_iff]
  constructor
  · rintro ⟨id, hid, hchild⟩
    exact hid.eq_root ▸ hchild
  · intro hchild
    exact ⟨root, .root, hchild⟩

/-- What leads to a node can be told from its path. -/
theorem leads_congr {t : Store} (h : Coherent s) (ht : Coherent t) {id : NodeId} {n m : Node}
    (hn : s.get? id = some n) (hm : t.get? id = some m) (hpath : m.path = n.path)
    (names : List String) : t.Leads names id ↔ s.Leads names id := by
  obtain ⟨above, hl⟩ := h.exists_leads hn
  obtain ⟨others, ho⟩ := ht.exists_leads hm
  have hp := h.path_eq_of_leads hl hn
  have hq := ht.path_eq_of_leads ho hm
  have heq : others = above := Path.ofNames_inj (ht.isNodeName_of_leads ho)
    (h.isNodeName_of_leads hl) (by rw [← hp, ← hq, hpath])
  constructor
  · intro hl'
    rwa [ht.leads_unique hl' ho, heq]
  · intro hl'
    rwa [h.leads_unique hl' hl, ← heq]

end Coherent

theorem get?_empty {id : NodeId} {n : Node} (hn : empty.get? id = some n) :
    id = root ∧ n = rootNode := by
  obtain ⟨slot⟩ := id
  rw [get?_eq_some_iff] at hn
  cases slot with
  | zero => simpa [empty, root, eq_comm] using hn
  | succ k => simp [empty] at hn

theorem coherent_empty : Coherent empty where
  tree := by
    refine ⟨⟨rootNode, rfl, rfl, rfl, rfl⟩, ?_, ?_, ?_, ?_⟩
    · intro id n hn hid
      exact absurd (get?_empty hn).1 hid
    · intro id n c hn hc
      rw [(get?_empty hn).2] at hc
      cases hc
    · intro id n hn
      rw [(get?_empty hn).2]
      exact List.nodup_nil
    · intro id n hn hid
      exact absurd (get?_empty hn).1 hid
  indexes := by
    have hentry : ∀ id, empty.entry id = none := by
      rintro ⟨slot⟩
      cases slot with
      | zero => rfl
      | succ k => simp [entry, get?, empty]
    constructor
    · intro name path id
      rw [hentry]
      simp [indexed?, empty]
    · intro name paths hp
      simp [empty] at hp
  tracksFree := by
    refine ⟨List.nodup_nil, ?_⟩
    intro slot
    cases slot <;> simp [empty]

end Store

end TreeDatabase
