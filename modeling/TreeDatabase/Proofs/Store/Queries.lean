import TreeDatabase.Proofs.Store.Changes

/-!
# Queries

The queries answer from the index, from the paths of the nodes or from the slots. In a coherent
store the answers are those of a search through the tree from the root.
-/

namespace TreeDatabase

namespace Store

variable {s : Store}

/-- A node other than the root that is reached from the root. -/
structure Reached (s : Store) (id : NodeId) (n : Node) : Prop where
  below : s.Below root id
  ne_root : id ≠ root
  live : s.get? id = some n

/-- A node is the child of the root that is named as the rule node, or lies below it. -/
def UnderRules (s : Store) (id : NodeId) : Prop :=
  ∃ r top t, s.get? root = some r ∧ top ∈ r.children ∧ s.get? top = some t ∧
    t.name = Vocabulary.ruleSubtree ∧ s.Below top id

theorem Coherent.reached_iff (h : Coherent s) {id : NodeId} {n : Node} :
    s.Reached id n ↔ id ≠ root ∧ s.get? id = some n := by
  constructor
  · intro hr
    exact ⟨hr.ne_root, hr.live⟩
  · rintro ⟨hid, hn⟩
    obtain ⟨names, hl⟩ := h.exists_leads hn
    exact ⟨hl.below_root, hid, hn⟩

theorem Coherent.indexed?_iff_reached (h : Coherent s) {name path : String} {id : NodeId} :
    s.indexed? name path = some id ↔ ∃ n, s.Reached id n ∧ n.name = name ∧ n.path = path := by
  simp only [h.indexed?_iff, h.reached_iff]
  constructor
  · rintro ⟨hid, n, hn, hname, hpath⟩
    exact ⟨n, ⟨hid, hn⟩, hname, hpath⟩
  · rintro ⟨n, ⟨hid, hn⟩, hname, hpath⟩
    exact ⟨hid, n, hn, hname, hpath⟩

/-! ## The rule subtree -/

theorem Coherent.underRules_iff_leads (h : Coherent s) {id : NodeId} :
    s.UnderRules id ↔ ∃ names, s.Leads (Vocabulary.ruleSubtree :: names) id := by
  constructor
  · rintro ⟨r, top, t, hr, htop, ht, hname, hb⟩
    have hl := Leads.root.child hr htop ht
    rw [hname] at hl
    obtain ⟨names, hl⟩ := h.leads_of_below hl hb
    exact ⟨names, hl⟩
  · rintro ⟨names, hl⟩
    have hsplit : s.Leads ([Vocabulary.ruleSubtree] ++ names) id := hl
    obtain ⟨top, htop, hb⟩ := hsplit.split
    have htop' : s.Leads ([] ++ [Vocabulary.ruleSubtree]) top := htop
    obtain ⟨p, n, m, hp, hn, hmem, hm, hname⟩ := htop'.parent
    exact ⟨n, top, m, hp.eq_root ▸ hn, hmem, hm, hname, hb⟩

theorem Coherent.inRuleSubtree_iff (h : Coherent s) {id : NodeId} :
    s.inRuleSubtree id = true ↔ s.UnderRules id := by
  rw [h.underRules_iff_leads, inRuleSubtree]
  cases hn : s.get? id with
  | none =>
    constructor
    · intro he
      cases he
    · rintro ⟨names, hl⟩
      obtain ⟨n, hn', _⟩ := h.path_of_leads hl
      rw [hn] at hn'
      cases hn'
  | some n =>
    obtain ⟨names, hl⟩ := h.exists_leads hn
    have hpath := h.path_eq_of_leads hl hn
    have hvalid := h.isNodeName_of_leads hl
    cases names with
    | nil =>
      rw [Path.ofNames_nil] at hpath
      constructor
      · intro he
        simp [hpath] at he
      · rintro ⟨rest, hl'⟩
        cases h.leads_unique hl hl'
    | cons first rest =>
      have hne := Path.ofNames_ne_blank (by simp) hvalid
      have hfirst : Path.first (Path.ofNames (first :: rest)) = first :=
        Path.first_ofNames (hvalid first (by simp))
      constructor
      · intro he
        simp only [hpath, hfirst, Bool.and_eq_true, beq_iff_eq] at he
        exact ⟨rest, he.2 ▸ hl⟩
      · rintro ⟨rest', hl'⟩
        cases h.leads_unique hl hl'
        simp only [hpath, hfirst, Bool.and_eq_true, bne_iff_ne, beq_self_eq_true, and_true]
        exact hne

/-! ## The entries of the index -/

theorem values_eq_map_snd (m : Std.TreeMap String PathIndex) :
    m.values = m.toList.map Prod.snd := by
  rw [show m.values = m.foldr (fun _ paths l => paths :: l) [] from rfl,
    Std.TreeMap.foldr_eq_foldr_toList]
  induction m.toList with
  | nil => rfl
  | cons e l ih => rw [List.foldr_cons, ih, List.map_cons]

/-- All paths of the index with their handles, by name and path. -/
def entries (s : Store) : List (String × NodeId) := s.index.toList.flatMap (·.2.toList)

theorem Coherent.mem_entries_iff (h : Coherent s) {path : String} {id : NodeId} :
    (path, id) ∈ s.entries ↔ ∃ n, s.Reached id n ∧ n.path = path := by
  simp only [entries, List.mem_flatMap, Prod.exists, Std.TreeMap.mem_toList_iff_getElem?_eq_some]
  constructor
  · rintro ⟨name, paths, hp, hid⟩
    obtain ⟨n, hn, _, hpath⟩ := h.indexed?_iff_reached.mp
      (indexed?_eq_some_iff.mpr ⟨paths, hp, hid⟩)
    exact ⟨n, hn, hpath⟩
  · rintro ⟨n, hn, rfl⟩
    have hi := h.indexed?_iff_reached.mpr ⟨n, hn, rfl, rfl⟩
    obtain ⟨paths, hp, hid⟩ := indexed?_eq_some_iff.mp hi
    exact ⟨n.name, paths, hp, hid⟩

theorem Coherent.pairwise_entries (h : Coherent s) :
    s.entries.Pairwise fun a b => a.1 ≠ b.1 := by
  rw [entries, List.pairwise_flatMap]
  constructor
  · rintro ⟨name, paths⟩ _
    refine Std.TreeMap.distinct_keys_toList.imp ?_
    intro a b hab he
    exact hab (Std.compare_eq_iff_eq.mpr he)
  · refine Std.TreeMap.distinct_keys_toList.imp_of_mem ?_
    rintro ⟨name, paths⟩ ⟨name', paths'⟩ hmem hmem' hne ⟨p, i⟩ hi ⟨q, j⟩ hj rfl
    simp only [Std.TreeMap.mem_toList_iff_getElem?_eq_some] at hmem hmem' hi hj
    obtain ⟨n, hn, hname, hpath⟩ := h.indexed?_iff_reached.mp
      (indexed?_eq_some_iff.mpr ⟨paths, hmem, hi⟩)
    obtain ⟨m, hm, hname', hpath'⟩ := h.indexed?_iff_reached.mp
      (indexed?_eq_some_iff.mpr ⟨paths', hmem', hj⟩)
    obtain rfl := h.path_inj hn.live hm.live (hpath.trans hpath'.symm)
    have hnm := hn.live.symm.trans hm.live
    cases hnm
    exact hne (Std.compare_eq_iff_eq.mpr (hname.symm.trans hname'))

theorem size_eq_length_entries (s : Store) : s.size = s.entries.length := by
  rw [size, entries, values_eq_map_snd, List.length_flatMap, List.map_map]
  simp only [Function.comp_def, Std.TreeMap.length_toList]
  rfl

theorem indexedPaths_eq (s : Store) :
    s.indexedPaths = (s.entries.map Prod.fst).mergeSort fun a b => decide (a ≤ b) := by
  rw [indexedPaths, entries, values_eq_map_snd, List.flatMap_map, List.map_flatMap]
  simp only [Std.TreeMap.map_fst_toList_eq_keys]

theorem pairwise_mergeSort_key {α : Type} (key : α → String) (l : List α) :
    (l.mergeSort fun a b => decide (key a ≤ key b)).Pairwise fun a b => key a ≤ key b := by
  refine (List.pairwise_mergeSort (fun a b c hab hbc => ?_) (fun a b => ?_) l).imp
    of_decide_eq_true
  · rw [decide_eq_true_eq] at *
    exact String.le_trans hab hbc
  · simpa using String.le_total (key a) (key b)

theorem pairwise_lt_mergeSort {l : List String} (h : l.Nodup) :
    (l.mergeSort fun a b => decide (a ≤ b)).Pairwise (· < ·) := by
  have hne : (l.mergeSort fun a b => decide (a ≤ b)).Nodup :=
    (List.mergeSort_perm l _).nodup_iff.mpr h
  refine ((pairwise_mergeSort_key id l).and hne).imp ?_
  rintro a b ⟨hab, hne⟩
  exact Std.lt_of_le_of_ne hab hne

/-! ## Look-ups -/

theorem Coherent.lookup_iff_leads (h : Coherent s) {path : String} {id : NodeId} :
    s.lookup path = some id ↔ ∃ names, s.Leads names id ∧ Path.ofNames names = path := by
  rw [h.lookup_iff]
  constructor
  · rintro ⟨n, hn, rfl⟩
    obtain ⟨names, hl⟩ := h.exists_leads hn
    have hpath := h.path_eq_of_leads hl hn
    exact ⟨names, hl, hpath.symm⟩
  · rintro ⟨names, hl, rfl⟩
    exact h.path_of_leads hl

theorem find?_eq_some_iff_of_unique {α : Type} {l : List α} {p : α → Bool}
    (huniq : ∀ a ∈ l, ∀ b ∈ l, p a → p b → a = b) {a : α} :
    l.find? p = some a ↔ a ∈ l ∧ p a = true := by
  constructor
  · intro he
    exact ⟨List.mem_of_find?_eq_some he, List.find?_some he⟩
  · rintro ⟨ha, hp⟩
    cases he : l.find? p with
    | none => exact absurd hp (List.find?_eq_none.mp he a ha)
    | some b =>
      rw [huniq b (List.mem_of_find?_eq_some he) a ha (List.find?_some he) hp]

theorem Coherent.child?_eq_find? (h : Coherent s) (id : NodeId) (name : String) :
    s.child? id name = (s.children id).find? fun c => (s.get? c).any (·.name == name) := by
  rw [children]
  cases hn : s.get? id with
  | none => rw [child?, hn, Option.bind_none, List.find?_nil]
  | some n =>
    apply Option.ext
    intro c
    have hany : ∀ c, (s.get? c).any (·.name == name) = true ↔
        ∃ m, s.get? c = some m ∧ m.name = name := by
      intro c
      simp [Option.any_eq_true]
    have huniq : ∀ a ∈ n.children, ∀ b ∈ n.children, (s.get? a).any (·.name == name) = true →
        (s.get? b).any (·.name == name) = true → a = b := by
      intro a ha b hb hpa hpb
      obtain ⟨k, hk, hka⟩ := (hany a).mp hpa
      obtain ⟨l, hl, hlb⟩ := (hany b).mp hpb
      exact h.sibling_inj hn ha hb hk hl (hka.trans hlb.symm)
    rw [find?_eq_some_iff_of_unique huniq, h.child?_iff, hany]
    constructor
    · rintro ⟨n', m, hn', hc, hm, hname⟩
      rw [hn] at hn'
      cases hn'
      exact ⟨hc, m, hm, hname⟩
    · rintro ⟨hc, m, hm, hname⟩
      exact ⟨n, m, hn, hc, hm, hname⟩

theorem Coherent.mem_findByName_iff (h : Coherent s) {name path : String} {includeRules : Bool}
    {id : NodeId} : (path, id) ∈ s.findByName name includeRules ↔
      ∃ n, s.Reached id n ∧ n.name = name ∧ n.path = path ∧
        (includeRules = true ∨ ¬ s.UnderRules id) := by
  have hmem : (path, id) ∈ s.findByName name includeRules ↔
      s.indexed? name path = some id ∧ (includeRules || !s.inRuleSubtree id) = true := by
    rw [findByName, indexed?]
    cases s.index[name]? with
    | none => simp
    | some paths => simp [Std.TreeMap.mem_toList_iff_getElem?_eq_some]
  rw [hmem, h.indexed?_iff_reached, Bool.or_eq_true, Bool.not_eq_true', ← h.inRuleSubtree_iff,
    Bool.not_eq_true]
  constructor
  · rintro ⟨⟨n, hn, hname, hpath⟩, hr⟩
    exact ⟨n, hn, hname, hpath, hr⟩
  · rintro ⟨n, hn, hname, hpath, hr⟩
    exact ⟨⟨n, hn, hname, hpath⟩, hr⟩

theorem pairwise_findByName (s : Store) (name : String) (includeRules : Bool) :
    (s.findByName name includeRules).Pairwise fun a b => a.1 < b.1 := by
  rw [findByName]
  split
  · exact List.Pairwise.nil
  · next paths _ =>
    apply List.Pairwise.filter
    refine Std.TreeMap.ordered_keys_toList.imp ?_
    intro a b hab
    exact compareOfLessAndEq_eq_lt.mp hab

theorem Coherent.findParentsOf_forall (h : Coherent s) (name : String) (includeRules : Bool) :
    List.Forall₂ (fun child parent => ∃ p, s.get? parent.2 = some p ∧ p.path = parent.1 ∧
      child.2 ∈ p.children) (s.findByName name includeRules)
      (s.findParentsOf name includeRules) := by
  have hfound : ∀ entry ∈ s.findByName name includeRules, ∃ n, s.Reached entry.2 n := by
    rintro ⟨path, id⟩ hentry
    obtain ⟨n, hn, _⟩ := h.mem_findByName_iff.mp hentry
    exact ⟨n, hn⟩
  rw [findParentsOf]
  generalize s.findByName name includeRules = found at hfound
  induction found with
  | nil => exact .nil
  | cons entry found ih =>
    obtain ⟨n, hn⟩ := hfound entry List.mem_cons_self
    obtain ⟨p, m, hp, hm, hmem, _⟩ := h.tree.above hn.live hn.ne_root
    have hlocated : ((s.get? entry.2).bind fun node => node.parent.bind s.located?) =
        some (m.path, p) := by
      rw [hn.live, Option.bind_some, hp, Option.bind_some, located?, hm, Option.map_some]
    simp only [List.filterMap_cons, hlocated]
    exact .cons ⟨m, hm, rfl, hmem⟩ (ih fun e he => hfound e (List.mem_cons_of_mem _ he))

theorem Coherent.containsName_iff (h : Coherent s) {name : String} :
    s.containsName name = true ↔ ∃ id n, s.Reached id n ∧ n.name = name := by
  rw [containsName, Std.TreeMap.contains_eq_isSome_getElem?, Option.isSome_iff_exists]
  constructor
  · rintro ⟨paths, hp⟩
    have hne := h.indexes.nonempty name paths hp
    obtain ⟨path, hpath⟩ := Std.TreeMap.isEmpty_eq_false_iff_exists_mem.mp hne
    obtain ⟨id, hid⟩ := Option.isSome_iff_exists.mp (Std.TreeMap.isSome_getElem?_iff_mem.mpr hpath)
    obtain ⟨n, hn, hname, _⟩ := h.indexed?_iff_reached.mp
      (indexed?_eq_some_iff.mpr ⟨paths, hp, hid⟩)
    exact ⟨id, n, hn, hname⟩
  · rintro ⟨id, n, hn, rfl⟩
    obtain ⟨paths, hp, _⟩ := indexed?_eq_some_iff.mp
      (h.indexed?_iff_reached.mpr ⟨n, hn, rfl, rfl⟩)
    exact ⟨paths, hp⟩

theorem mem_nodesBelowRoot_iff {n : Node} :
    n ∈ s.nodesBelowRoot ↔ ∃ id, id ≠ root ∧ s.get? id = some n := by
  rw [nodesBelowRoot, List.mem_filterMap]
  simp only [id_eq, exists_eq_right]
  rw [List.mem_iff_getElem?]
  simp only [List.getElem?_drop, Array.getElem?_toList]
  constructor
  · rintro ⟨i, hi⟩
    exact ⟨⟨1 + i⟩, by simp [root], get?_eq_some_iff.mpr hi⟩
  · rintro ⟨⟨slot⟩, hid, hn⟩
    have hslot : 1 + (slot - 1) = slot := by
      have : slot ≠ 0 := fun he => hid (by rw [he]; rfl)
      omega
    exact ⟨slot - 1, by rw [hslot]; exact get?_eq_some_iff.mp hn⟩

theorem Coherent.containsValue_iff (h : Coherent s) {value : String} :
    s.containsValue value = true ↔ ∃ id n, s.Reached id n ∧ n.value = value := by
  simp only [containsValue, List.any_eq_true, mem_nodesBelowRoot_iff, beq_iff_eq, h.reached_iff]
  constructor
  · rintro ⟨n, ⟨id, hid⟩, hvalue⟩
    exact ⟨id, n, hid, hvalue⟩
  · rintro ⟨id, n, hid, hvalue⟩
    exact ⟨n, ⟨id, hid⟩, hvalue⟩

theorem Coherent.mem_nodesWithValue_iff (h : Coherent s) {name value : String} {id : NodeId} :
    id ∈ s.nodesWithValue name value ↔
      ∃ n, s.Reached id n ∧ n.name = name ∧ n.value = value ∧ ¬ s.UnderRules id := by
  simp only [nodesWithValue, List.mem_filter, List.mem_map, Prod.exists, exists_eq_right,
    h.mem_findByName_iff, Bool.false_eq_true, false_or]
  constructor
  · rintro ⟨⟨path, n, hn, hname, _, hr⟩, hvalue⟩
    rw [hn.live] at hvalue
    exact ⟨n, hn, hname, by simpa using hvalue, hr⟩
  · rintro ⟨n, hn, hname, hvalue, hr⟩
    exact ⟨⟨n.path, n, hn, hname, rfl, hr⟩, by simp [hn.live, hvalue]⟩

theorem Coherent.pairwise_nodesWithValue (h : Coherent s) (name value : String) :
    (s.nodesWithValue name value).Pairwise fun i j =>
      ∃ n m, s.get? i = some n ∧ s.get? j = some m ∧ n.path < m.path := by
  apply List.Pairwise.filter
  rw [List.pairwise_map]
  refine (pairwise_findByName s name false).imp_of_mem ?_
  rintro ⟨p, i⟩ ⟨q, j⟩ hi hj hlt
  obtain ⟨n, hn, _, rfl, _⟩ := h.mem_findByName_iff.mp hi
  obtain ⟨m, hm, _, rfl, _⟩ := h.mem_findByName_iff.mp hj
  exact ⟨n, m, hn.live, hm.live, hlt⟩

theorem Coherent.isUnique_iff (h : Coherent s) {name value : String} :
    s.isUnique name value = true ↔ ∀ i j n m, s.Reached i n → s.Reached j m → n.name = name →
      m.name = name → n.value = value → m.value = value → ¬ s.UnderRules i → ¬ s.UnderRules j →
      i = j := by
  rw [isUnique, decide_eq_true_eq]
  have hpair := h.pairwise_nodesWithValue name value
  have hmem : ∀ id, id ∈ s.nodesWithValue name value ↔ _ := fun id => h.mem_nodesWithValue_iff
  generalize s.nodesWithValue name value = found at hpair hmem
  constructor
  · intro hlen i j n m hn hm hnn hmn hnv hmv hi hj
    have hi' := (hmem i).mpr ⟨n, hn, hnn, hnv, hi⟩
    have hj' := (hmem j).mpr ⟨m, hm, hmn, hmv, hj⟩
    match found, hlen, hi', hj' with
    | [k], _, hi', hj' => rw [List.mem_singleton.mp hi', List.mem_singleton.mp hj']
  · intro huniq
    cases found with
    | nil => simp
    | cons i rest =>
      cases rest with
      | nil => simp
      | cons j rest =>
        obtain ⟨n, hn, hnn, hnv, hi⟩ := (hmem i).mp (by simp)
        obtain ⟨m, hm, hmn, hmv, hj⟩ := (hmem j).mp (by simp)
        obtain ⟨n', m', hn', hm', hlt⟩ := List.rel_of_pairwise_cons hpair List.mem_cons_self
        obtain rfl := huniq i j n m hn hm hnn hmn hnv hmv hi hj
        rw [hn'] at hm'
        cases hm'
        exact absurd hlt (String.lt_irrefl _)

theorem Coherent.isEmpty_iff (h : Coherent s) : s.isEmpty = true ↔ ∀ id n, ¬ s.Reached id n := by
  rw [isEmpty]
  constructor
  · intro he id n hn
    obtain ⟨paths, hp, _⟩ := indexed?_eq_some_iff.mp
      (h.indexed?_iff_reached.mpr ⟨n, hn, rfl, rfl⟩)
    rw [Std.TreeMap.getElem?_of_isEmpty he] at hp
    cases hp
  · intro hnone
    by_contra he
    obtain ⟨name, hname⟩ := Std.TreeMap.isEmpty_eq_false_iff_exists_mem.mp (eq_false_of_ne_true he)
    obtain ⟨id, n, hn, _⟩ := h.containsName_iff.mp (Std.TreeMap.contains_iff_mem.mpr hname)
    exact hnone id n hn

/-! ## All queries -/

/-- The answers to the queries, told by the tree alone. -/
structure AnswersFromTree (s : Store) : Prop where
  /-- A path leads to the node whose names it is made of. -/
  lookup : ∀ path id, s.lookup path = some id ↔
    ∃ names, s.Leads names id ∧ Path.ofNames names = path
  child? : ∀ id name,
    s.child? id name = (s.children id).find? fun c => (s.get? c).any (·.name == name)
  findByName : ∀ name includeRules path id, (path, id) ∈ s.findByName name includeRules ↔
    ∃ n, s.Reached id n ∧ n.name = name ∧ n.path = path ∧
      (includeRules = true ∨ ¬ s.UnderRules id)
  findByName_ascending : ∀ name includeRules,
    (s.findByName name includeRules).Pairwise fun a b => a.1 < b.1
  findParentsOf : ∀ name includeRules, List.Forall₂
    (fun child parent => ∃ p, s.get? parent.2 = some p ∧ p.path = parent.1 ∧ child.2 ∈ p.children)
    (s.findByName name includeRules) (s.findParentsOf name includeRules)
  containsName : ∀ name, s.containsName name = true ↔ ∃ id n, s.Reached id n ∧ n.name = name
  containsValue : ∀ value, s.containsValue value = true ↔ ∃ id n, s.Reached id n ∧ n.value = value
  nodesWithValue : ∀ name value id, id ∈ s.nodesWithValue name value ↔
    ∃ n, s.Reached id n ∧ n.name = name ∧ n.value = value ∧ ¬ s.UnderRules id
  nodesWithValue_ascending : ∀ name value, (s.nodesWithValue name value).Pairwise fun i j =>
    ∃ n m, s.get? i = some n ∧ s.get? j = some m ∧ n.path < m.path
  isUnique : ∀ name value, s.isUnique name value = true ↔ ∀ i j n m, s.Reached i n →
    s.Reached j m → n.name = name → m.name = name → n.value = value → m.value = value →
    ¬ s.UnderRules i → ¬ s.UnderRules j → i = j
  /-- The size counts the nodes that are reached. -/
  size : ∃ ids : List NodeId, ids.Nodup ∧ (∀ id, id ∈ ids ↔ ∃ n, s.Reached id n) ∧
    s.size = ids.length
  isEmpty : s.isEmpty = true ↔ ∀ id n, ¬ s.Reached id n
  indexedPaths : ∀ path, path ∈ s.indexedPaths ↔ ∃ id n, s.Reached id n ∧ n.path = path
  indexedPaths_ascending : s.indexedPaths.Pairwise (· < ·)
  inRuleSubtree : ∀ id, s.inRuleSubtree id = true ↔ s.UnderRules id

theorem Coherent.size_eq (h : Coherent s) : ∃ ids : List NodeId, ids.Nodup ∧
    (∀ id, id ∈ ids ↔ ∃ n, s.Reached id n) ∧ s.size = ids.length := by
  refine ⟨s.entries.map Prod.snd, ?_, ?_, by rw [size_eq_length_entries, List.length_map]⟩
  · rw [List.nodup_iff_pairwise_ne, List.pairwise_map]
    refine h.pairwise_entries.imp_of_mem ?_
    rintro ⟨p, i⟩ ⟨q, j⟩ hi hj hne rfl
    obtain ⟨n, hn, rfl⟩ := h.mem_entries_iff.mp hi
    obtain ⟨m, hm, rfl⟩ := h.mem_entries_iff.mp hj
    have hnm := hn.live.symm.trans hm.live
    cases hnm
    exact hne rfl
  · intro id
    simp only [List.mem_map, Prod.exists, exists_eq_right, h.mem_entries_iff]
    constructor
    · rintro ⟨_, n, hn, _⟩
      exact ⟨n, hn⟩
    · rintro ⟨n, hn⟩
      exact ⟨n.path, n, hn, rfl⟩

theorem Coherent.mem_indexedPaths_iff (h : Coherent s) {path : String} :
    path ∈ s.indexedPaths ↔ ∃ id n, s.Reached id n ∧ n.path = path := by
  simp only [indexedPaths_eq, List.mem_mergeSort, List.mem_map, Prod.exists, exists_and_right,
    exists_eq_right, h.mem_entries_iff]

theorem Coherent.pairwise_indexedPaths (h : Coherent s) : s.indexedPaths.Pairwise (· < ·) := by
  rw [indexedPaths_eq]
  apply pairwise_lt_mergeSort
  rw [List.nodup_iff_pairwise_ne, List.pairwise_map]
  exact h.pairwise_entries

theorem Coherent.answersFromTree (h : Coherent s) : s.AnswersFromTree where
  lookup _ _ := h.lookup_iff_leads
  child? := h.child?_eq_find?
  findByName _ _ _ _ := h.mem_findByName_iff
  findByName_ascending := pairwise_findByName s
  findParentsOf := h.findParentsOf_forall
  containsName _ := h.containsName_iff
  containsValue _ := h.containsValue_iff
  nodesWithValue _ _ _ := h.mem_nodesWithValue_iff
  nodesWithValue_ascending := h.pairwise_nodesWithValue
  isUnique _ _ := h.isUnique_iff
  size := h.size_eq
  isEmpty := h.isEmpty_iff
  indexedPaths _ := h.mem_indexedPaths_iff
  indexedPaths_ascending := h.pairwise_indexedPaths
  inRuleSubtree _ := h.inRuleSubtree_iff

end Store

/-- After any changes the store answers from its tree. -/
theorem answersFromTree_run (changes : List Change) : (Change.run changes).AnswersFromTree :=
  (Change.coherent_run changes).answersFromTree

end TreeDatabase
