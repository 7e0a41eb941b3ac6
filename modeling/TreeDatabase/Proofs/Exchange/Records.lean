import TreeDatabase.Proofs.Exchange.FlatFile

/-!
# Records of a tree

The records of a store are determined by its nodes, in whatever slots these stand. Loading them into
an empty store builds a tree of the same records.
-/

namespace TreeDatabase

namespace Store

variable {s t : Store}

/-! ## Writing records -/

theorem mem_toRecords_iff {r : Record} :
    r ∈ s.toRecords ↔ ∃ id n, id ≠ root ∧ s.get? id = some n ∧ r = ⟨n.path, n.value⟩ := by
  rw [toRecords, List.mem_mergeSort, List.mem_map]
  simp only [mem_nodesBelowRoot_iff]
  constructor
  · rintro ⟨n, ⟨id, hid, hn⟩, rfl⟩
    exact ⟨id, n, hid, hn, rfl⟩
  · rintro ⟨id, n, hid, hn, rfl⟩
    exact ⟨n, ⟨id, hid, hn⟩, rfl⟩

theorem Coherent.toRecords_of_isEmpty (h : Coherent s) (he : s.isEmpty = true) :
    s.toRecords = [] := by
  rw [List.eq_nil_iff_forall_not_mem]
  intro r hr
  obtain ⟨id, n, hid, hn, _⟩ := mem_toRecords_iff.mp hr
  exact h.isEmpty_iff.mp he id n (h.reached_iff.mpr ⟨hid, hn⟩)

theorem toRecords_empty : empty.toRecords = [] := coherent_empty.toRecords_of_isEmpty (by decide)

/-- A record is that of the node at its path. -/
theorem Coherent.mem_toRecords_iff_leads (h : Coherent s) {r : Record} :
    r ∈ s.toRecords ↔ ∃ names id n, names ≠ [] ∧ s.Leads names id ∧ s.get? id = some n ∧
      r.path = Path.ofNames names ∧ r.value = n.value := by
  rw [mem_toRecords_iff]
  constructor
  · rintro ⟨id, n, hid, hn, rfl⟩
    obtain ⟨names, hl⟩ := h.exists_leads hn
    have hpath := h.path_eq_of_leads hl hn
    refine ⟨names, id, n, ?_, hl, hn, hpath, rfl⟩
    rintro rfl
    exact hid hl.eq_root
  · rintro ⟨names, id, n, hne, hl, hn, hpath, hvalue⟩
    have hpath' := h.path_eq_of_leads hl hn
    have hid : id ≠ root := by
      intro hid
      have hblank := (h.tree.path_eq_blank_iff hn).mpr hid
      exact Path.ofNames_ne_blank hne (h.isNodeName_of_leads hl) (hpath' ▸ hblank)
    refine ⟨id, n, hid, hn, ?_⟩
    rw [hpath', ← hpath, ← hvalue]

theorem Coherent.pairwise_paths (h : Coherent s) :
    s.nodesBelowRoot.Pairwise fun n m => n.path ≠ m.path := by
  rw [nodesBelowRoot, List.pairwise_filterMap, List.pairwise_iff_getElem]
  intro i j hi hj hij n hn m hm hpath
  have hget : ∀ {k : Nat} {l : Node} (hk : k < (s.nodes.toList.drop 1).length),
      id (s.nodes.toList.drop 1)[k] = some l → s.get? ⟨1 + k⟩ = some l := by
    intro k l hk hl
    rw [get?_eq_some_iff, ← Array.getElem?_toList, ← List.getElem?_drop,
      List.getElem?_eq_getElem hk]
    exact congrArg some hl
  have heq : (⟨1 + i⟩ : NodeId) = ⟨1 + j⟩ := h.path_inj (hget hi hn) (hget hj hm) hpath
  have hslot : 1 + i = 1 + j := congrArg NodeId.slot heq
  omega

/-- Records stand in descending order of their paths, which are all different. -/
theorem Coherent.pairwise_toRecords (h : Coherent s) :
    s.toRecords.Pairwise fun a b => b.path < a.path := by
  have hsorted : s.toRecords.Pairwise fun a b => decide (b.path ≤ a.path) = true := by
    refine List.pairwise_mergeSort (fun a b c hab hbc => ?_) (fun a b => ?_) _
    · rw [decide_eq_true_eq] at *
      exact String.le_trans hbc hab
    · rw [Bool.or_eq_true, decide_eq_true_eq, decide_eq_true_eq]
      exact String.le_total b.path a.path
  have hdistinct : s.toRecords.Pairwise fun a b => a.path ≠ b.path := by
    rw [toRecords, (List.mergeSort_perm _ _).pairwise_iff fun hab => hab.symm, List.pairwise_map]
    exact h.pairwise_paths
  refine (hsorted.and hdistinct).imp fun {a b} hab => ?_
  rw [← String.not_le]
  exact fun hle => hab.2 (String.le_antisymm hle (of_decide_eq_true hab.1))

theorem Coherent.toRecords_eq_of_perm (h : Coherent s) {rs : List Record}
    (hperm : s.toRecords.Perm rs) (hrs : rs.Pairwise fun a b => b.path < a.path) :
    s.toRecords = rs :=
  hperm.eq_of_pairwise (fun _ _ _ _ hab hba => absurd hab (String.lt_asymm hba))
    h.pairwise_toRecords hrs

theorem Coherent.toRecords_eq_of_mem_iff (h : Coherent s) {rs : List Record}
    (hmem : ∀ r, r ∈ s.toRecords ↔ r ∈ rs) (hrs : rs.Pairwise fun a b => b.path < a.path) :
    s.toRecords = rs := by
  have hnodup : ∀ {l : List Record}, (l.Pairwise fun a b => b.path < a.path) → l.Nodup := by
    intro l hl
    refine hl.imp ?_
    rintro a b hab rfl
    exact String.lt_irrefl _ hab
  exact h.toRecords_eq_of_perm
    ((List.perm_ext_iff_of_nodup (hnodup h.pairwise_toRecords) (hnodup hrs)).mpr hmem) hrs

/-- The records of a store are determined by which they are. -/
theorem Coherent.toRecords_ext (h : Coherent s) (ht : Coherent t)
    (hmem : ∀ r, r ∈ s.toRecords ↔ r ∈ t.toRecords) : s.toRecords = t.toRecords :=
  h.toRecords_eq_of_mem_iff hmem ht.pairwise_toRecords

/-- A record of a store is a value at the end of the names of its path. -/
theorem Coherent.mem_toRecords_iff_valueAt (h : Coherent s) {r : Record} :
    r ∈ s.toRecords ↔ s.valueAt (Path.segments r.path) = some r.value := by
  rw [h.mem_toRecords_iff_leads, h.valueAt_eq_some_iff]
  constructor
  · rintro ⟨names, id, n, hne, hl, hn, hpath, hvalue⟩
    rw [hpath, Path.segments_ofNames hne (h.isNodeName_of_leads hl)]
    exact ⟨id, n, hl, hn, hvalue.symm⟩
  · rintro ⟨id, n, hl, hn, hvalue⟩
    exact ⟨_, id, n, Path.segments_ne_nil _, hl, hn, (Path.ofNames_segments _).symm, hvalue.symm⟩

theorem Coherent.valueAt_iff_mem_toRecords (h : Coherent s) {names : List String} {value : String}
    (hne : names ≠ []) : s.valueAt names = some value ↔
      Path.segments (Path.ofNames names) = names ∧ ⟨Path.ofNames names, value⟩ ∈ s.toRecords := by
  rw [h.mem_toRecords_iff_valueAt]
  constructor
  · intro hvalue
    obtain ⟨id, _, hl, _⟩ := h.valueAt_eq_some_iff.mp hvalue
    have hsegments := Path.segments_ofNames hne (h.isNodeName_of_leads hl)
    rw [hsegments]
    exact ⟨rfl, hvalue⟩
  · rintro ⟨hsegments, hvalue⟩
    rwa [hsegments] at hvalue

theorem Coherent.valueAt_eq_none (h : Coherent s) (hnone : s.toRecords = []) {names : List String}
    (hne : names ≠ []) : s.valueAt names = none := by
  rw [Option.eq_none_iff_forall_ne_some]
  intro value hvalue
  have hmem := ((h.valueAt_iff_mem_toRecords hne).mp hvalue).2
  rw [hnone] at hmem
  cases hmem

theorem valueAt_empty {names : List String} (hne : names ≠ []) : empty.valueAt names = none :=
  coherent_empty.valueAt_eq_none toRecords_empty hne

/-- Two stores have the same records just if they have the same values at the ends of names. -/
theorem Coherent.toRecords_eq_iff (h : Coherent s) (ht : Coherent t) :
    s.toRecords = t.toRecords ↔ ∀ names, names ≠ [] → s.valueAt names = t.valueAt names := by
  constructor
  · intro heq names hne
    apply Option.ext
    intro value
    rw [h.valueAt_iff_mem_toRecords hne, ht.valueAt_iff_mem_toRecords hne, heq]
  · intro hvalues
    refine h.toRecords_ext ht fun r => ?_
    rw [h.mem_toRecords_iff_valueAt, ht.mem_toRecords_iff_valueAt,
      hvalues _ (Path.segments_ne_nil r.path)]

/-- The records of a store can be loaded unless a value spans lines. -/
theorem Coherent.loadable_of_mem (h : Coherent s) {r : Record} (hr : r ∈ s.toRecords)
    (hline : Text.OneLine r.value) : r.Loadable := by
  obtain ⟨names, _, _, hne, hl, _, hpath, _⟩ := h.mem_toRecords_iff_leads.mp hr
  exact Record.loadable_of_names hne (h.isNodeName_of_leads hl) hpath hline

/-! ## Loading records -/

/-- The records of a store, in whatever order, build a store of the same records. -/
theorem Coherent.load_perm (h : Coherent s) (hlines : ∀ r ∈ s.toRecords, Text.OneLine r.value)
    {rs : List Record} (hperm : rs.Perm s.toRecords) :
    ∃ t, empty.load rs = .ok (t, rs.length) ∧ Coherent t ∧ t.toRecords = s.toRecords := by
  have hmem : ∀ {r}, r ∈ sortRecords rs ↔ r ∈ s.toRecords :=
    mem_sortRecords_iff.trans hperm.mem_iff
  obtain ⟨t, hok, ht, hvalues⟩ := coherent_empty.merge_of_loadable fun r hr =>
    h.loadable_of_mem (hperm.mem_iff.mp hr) (hlines r (hperm.mem_iff.mp hr))
  refine ⟨t, hok, ht, (ht.toRecords_eq_iff h).mpr fun names hne => ?_⟩
  rw [hvalues, foldl_withRecord]
  split
  · next r hfound =>
    have hr : r ∈ s.toRecords := hmem.mp (List.mem_reverse.mp (List.mem_of_find?_eq_some hfound))
    have hsegments : Path.segments r.path = names := by simpa using List.find?_some hfound
    rw [← hsegments, h.mem_toRecords_iff_valueAt.mp hr]
  · next hnone =>
    -- a node of the store has its record among those that are loaded
    have hmissing : s.valueAt names = none := by
      rw [Option.eq_none_iff_forall_ne_some]
      intro value hvalue
      obtain ⟨hsegments, hrecord⟩ := (h.valueAt_iff_mem_toRecords hne).mp hvalue
      have hother := List.find?_eq_none.mp hnone _ (List.mem_reverse.mpr (hmem.mpr hrecord))
      exact hother (decide_eq_true hsegments)
    rw [if_neg, hmissing, valueAt_empty hne]
    rintro ⟨r, hr, hprefix⟩
    obtain ⟨id, _, hl, _⟩ :=
      h.valueAt_eq_some_iff.mp (h.mem_toRecords_iff_valueAt.mp (hmem.mp hr))
    have hsome := h.isSome_valueAt hl hprefix
    rw [hmissing] at hsome
    cases hsome

/-- What a store was written as builds a store of the same records. -/
theorem Coherent.load_toRecords (h : Coherent s) (hportable : ∀ r ∈ s.toRecords, r.Portable) :
    ∃ t n, empty.load s.toRecords = .ok (t, n) ∧ Coherent t ∧ t.toRecords = s.toRecords := by
  obtain ⟨t, hload, ht⟩ := h.load_perm (fun r hr => (hportable r hr).value) (List.Perm.refl _)
  exact ⟨t, s.toRecords.length, hload, ht⟩

/-! ## All records -/

/-- The record of a node. -/
def record? (s : Store) (id : NodeId) : Option Record :=
  (s.get? id).map fun n => ⟨n.path, n.value⟩

/-- Records are those of the nodes other than the root, each once. -/
def ListsNodes (s : Store) (rs : List Record) : Prop :=
  ∃ ids : List NodeId, ids.Nodup ∧ (∀ id, id ∈ ids ↔ id ≠ root ∧ ∃ n, s.get? id = some n) ∧
    ids.length = s.size ∧ ids.map s.record? = rs.map some

/-- The path of a record leads to its node. -/
theorem Coherent.exists_lookup_of_mem (h : Coherent s) {r : Record} (hr : r ∈ s.toRecords) :
    ∃ id, s.lookup r.path = some id ∧ id ≠ root ∧ s.record? id = some r := by
  obtain ⟨id, n, hid, hn, rfl⟩ := mem_toRecords_iff.mp hr
  exact ⟨id, h.lookup_iff.mpr ⟨n, hn, rfl⟩, hid, by rw [record?, hn, Option.map_some]⟩

theorem Coherent.listsNodes_toRecords (h : Coherent s) : s.ListsNodes s.toRecords := by
  let node (r : Record) : NodeId := (s.lookup r.path).getD root
  have hnode : ∀ r ∈ s.toRecords, node r ≠ root ∧ s.record? (node r) = some r := by
    intro r hr
    obtain ⟨id, hlookup, hid, hrecord⟩ := h.exists_lookup_of_mem hr
    have heq : node r = id := by simp [node, hlookup]
    rw [heq]
    exact ⟨hid, hrecord⟩
  have hnodup : (s.toRecords.map node).Nodup := by
    rw [List.nodup_iff_pairwise_ne, List.pairwise_map]
    refine h.pairwise_toRecords.imp_of_mem fun {a b} ha hb hlt heq => ?_
    have hab := (hnode a ha).2.symm.trans ((congrArg s.record? heq).trans (hnode b hb).2)
    rw [Option.some.inj hab] at hlt
    exact String.lt_irrefl _ hlt
  have hmem : ∀ id, id ∈ s.toRecords.map node ↔ id ≠ root ∧ ∃ n, s.get? id = some n := by
    intro id
    rw [List.mem_map]
    constructor
    · rintro ⟨r, hr, rfl⟩
      obtain ⟨n, hn, _⟩ := Option.map_eq_some_iff.mp (hnode r hr).2
      exact ⟨(hnode r hr).1, n, hn⟩
    · rintro ⟨hid, n, hn⟩
      have hr : (⟨n.path, n.value⟩ : Record) ∈ s.toRecords :=
        mem_toRecords_iff.mpr ⟨id, n, hid, hn, rfl⟩
      have hlookup : s.lookup n.path = some id := h.lookup_iff.mpr ⟨n, hn, rfl⟩
      exact ⟨_, hr, by simp [node, hlookup]⟩
  refine ⟨s.toRecords.map node, hnodup, hmem, ?_, ?_⟩
  · -- The size counts the same nodes.
    obtain ⟨ids, hids, hreached, hsize⟩ := h.size_eq
    have hperm : (s.toRecords.map node).Perm ids := by
      refine (List.perm_ext_iff_of_nodup hnodup hids).mpr fun id => ?_
      rw [hmem, hreached]
      simp only [h.reached_iff, exists_and_left]
    rw [hperm.length_eq, hsize]
  · rw [List.map_map]
    exact List.map_congr_left fun r hr => (hnode r hr).2

end Store

/-- After any changes the records list every node once, the greatest path first. If no value spans
lines, loading them in any order counts the nodes and gives a store of the same records. -/
theorem load_records_run (changes : List Change)
    (hlines : ∀ id n, id ≠ Store.root → (Change.run changes).get? id = some n →
      Text.OneLine n.value) :
    (Change.run changes).ListsNodes (Change.run changes).toRecords ∧
      (Change.run changes).toRecords.Pairwise (fun a b => b.path < a.path) ∧
      ∀ rs : List Record, rs.Perm (Change.run changes).toRecords →
        ∃ t, Store.empty.load rs = .ok (t, (Change.run changes).size) ∧
          t.toRecords = (Change.run changes).toRecords := by
  have h := Change.coherent_run changes
  have hlists := h.listsNodes_toRecords
  refine ⟨hlists, h.pairwise_toRecords, fun rs hperm => ?_⟩
  have hvalues : ∀ r ∈ (Change.run changes).toRecords, Text.OneLine r.value := by
    intro r hr
    obtain ⟨id, n, hid, hn, rfl⟩ := Store.mem_toRecords_iff.mp hr
    exact hlines id n hid hn
  obtain ⟨t, hload, _, hrecords⟩ := h.load_perm hvalues hperm
  obtain ⟨ids, _, _, hsize, hids⟩ := hlists
  have hlength : rs.length = (Change.run changes).size := by
    rw [hperm.length_eq, ← hsize, ← List.length_map (f := some), ← hids, List.length_map]
  exact ⟨t, by rw [hload, hlength], hrecords⟩

theorem load_records_run_ascending :
    (∀ id n, id ≠ Store.root → (Change.run [.insertOrGetChild Store.root "a" "1",
      .insertOrGetChild ⟨1⟩ "b" "x:y"]).get? id = some n → Text.OneLine n.value) ∧
    ∃ t, Store.empty.load [⟨"a", "1"⟩, ⟨"a.b", "x:y"⟩] = .ok (t, 2) ∧
      t.toRecords = [⟨"a.b", "x:y"⟩, ⟨"a", "1"⟩] := by
  let changes : List Change := [.insertOrGetChild Store.root "a" "1",
    .insertOrGetChild ⟨1⟩ "b" "x:y"]
  have hall : ∀ n ∈ (Change.run changes).nodesBelowRoot, Text.OneLine n.value := by decide +kernel
  have hlines : ∀ id n, id ≠ Store.root → (Change.run changes).get? id = some n →
      Text.OneLine n.value := fun id n hid hn =>
    hall n (Store.mem_nodesBelowRoot_iff.mpr ⟨id, hid, hn⟩)
  have hnodes : ((Change.run changes).nodesBelowRoot.map fun n => (⟨n.path, n.value⟩ : Record)) =
      [⟨"a", "1"⟩, ⟨"a.b", "x:y"⟩] := by
    decide +kernel
  have hrecords : (Change.run changes).toRecords = [⟨"a.b", "x:y"⟩, ⟨"a", "1"⟩] := by
    refine (Change.coherent_run changes).toRecords_eq_of_perm ?_ (by decide +kernel)
    rw [Store.toRecords, hnodes]
    exact (List.mergeSort_perm _ _).trans (.swap ..)
  have hsize : (Change.run changes).size = 2 := by decide +kernel
  obtain ⟨_, _, hload⟩ := load_records_run changes hlines
  rw [hrecords, hsize] at hload
  exact ⟨hlines, hload [⟨"a", "1"⟩, ⟨"a.b", "x:y"⟩] (.swap ..)⟩

end TreeDatabase
