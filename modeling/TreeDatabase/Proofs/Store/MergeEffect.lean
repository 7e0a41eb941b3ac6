import Mathlib.Data.List.Nodup
import TreeDatabase.Proofs.Store.Changes
import TreeDatabase.Proofs.Store.Merging

/-!
# What a merge does

Records are sorted before they are written, in a way that keeps those of one path in the order in
which they were given. So the last record of a path has its value, and when no path occurs twice the
order of the records does not matter. No node that was there moves: a merge gives values and adds
children at the end.
-/

namespace TreeDatabase

namespace Store

variable {s t : Store}

/-! ## The order of writing -/

theorem path_le_trans (a b c : Record) (hab : decide (a.path ≤ b.path) = true)
    (hbc : decide (b.path ≤ c.path) = true) : decide (a.path ≤ c.path) = true :=
  decide_eq_true (String.le_trans (of_decide_eq_true hab) (of_decide_eq_true hbc))

theorem path_le_total (a b : Record) :
    (decide (a.path ≤ b.path) || decide (b.path ≤ a.path)) = true := by
  rw [Bool.or_eq_true, decide_eq_true_eq, decide_eq_true_eq]
  exact String.le_total a.path b.path

theorem pairwise_sortRecords (rs : List Record) :
    (sortRecords rs).Pairwise fun a b => a.path ≤ b.path :=
  (List.pairwise_mergeSort path_le_trans path_le_total rs).imp of_decide_eq_true

/-- Records of one path stay in the order in which they were given. -/
theorem filter_sortRecords (path : String) (rs : List Record) :
    (sortRecords rs).filter (fun r => decide (r.path = path)) =
      rs.filter fun r => decide (r.path = path) := by
  have hsorted : (rs.filter fun r => decide (r.path = path)).Pairwise
      fun a b => decide (a.path ≤ b.path) = true := by
    rw [List.pairwise_filter]
    refine List.pairwise_of_forall fun a b ha hb => ?_
    have hab : a.path = b.path := (of_decide_eq_true ha).trans (of_decide_eq_true hb).symm
    exact decide_eq_true (hab ▸ String.le_refl a.path)
  have hsub : (rs.filter fun r => decide (r.path = path)).Sublist (sortRecords rs) :=
    List.sublist_mergeSort path_le_trans path_le_total hsorted List.filter_sublist
  have hfilter := hsub.filter fun r => decide (r.path = path)
  simp only [List.filter_filter, Bool.and_self] at hfilter
  have hperm : (sortRecords rs).Perm rs := List.mergeSort_perm _ _
  exact (hfilter.eq_of_length (hperm.filter _).length_eq.symm).symm

/-- The last record of a path is the same in the order of writing as in the order given. -/
theorem findRev_sortRecords (path : String) (rs : List Record) :
    (sortRecords rs).reverse.find? (fun r => decide (r.path = path)) =
      rs.reverse.find? fun r => decide (r.path = path) := by
  rw [← List.head?_filter, ← List.head?_filter, List.filter_reverse, List.filter_reverse,
    filter_sortRecords]

/-- The order in which records of different paths are given does not matter. -/
theorem sortRecords_eq_of_perm {rs rs' : List Record} (hperm : rs'.Perm rs)
    (hpaths : (rs.map (·.path)).Nodup) : sortRecords rs' = sortRecords rs := by
  have hsorted : (sortRecords rs').Perm (sortRecords rs) :=
    (List.mergeSort_perm _ _).trans (hperm.trans (List.mergeSort_perm _ _).symm)
  refine hsorted.eq_of_pairwise (fun a b ha hb hab hba => ?_) (pairwise_sortRecords rs')
    (pairwise_sortRecords rs)
  have ha := hperm.mem_iff.mp (mem_sortRecords_iff.mp ha)
  exact List.inj_on_of_nodup_map hpaths ha (mem_sortRecords_iff.mp hb) (String.le_antisymm hab hba)

theorem merge_eq_of_perm (s : Store) {rs rs' : List Record} (hperm : rs'.Perm rs)
    (hpaths : (rs.map (·.path)).Nodup) : s.merge rs' = s.merge rs := by
  rw [merge, merge, sortRecords_eq_of_perm hperm hpaths, hperm.length_eq]

/-! ## Nodes that stay -/

theorem Coherent.insertOrGetChild_keeps (h : Coherent s) {parent id : NodeId} {name value : String}
    {created : Bool} (hok : s.insertOrGetChild parent name value = .ok (t, id, created)) :
    s.Keeps t := by
  rcases h.insertOrGetChild_cases parent name value with
    ⟨_, _, _, heq⟩ | ⟨u, c, heq, hmissing, _, hinserted, _⟩ | ⟨_, heq, _⟩
  · rw [heq] at hok
    cases hok
    exact .refl s
  · rw [heq] at hok
    cases hok
    have hwrote : s.Wrote parent name (some value) _ _ := .created hmissing hinserted
    exact hwrote.keeps
  · rw [heq] at hok
    cases hok

theorem setValue_keeps {id : NodeId} {value : String} (hok : s.setValue id value = .ok t) :
    s.Keeps t := by
  intro j n hn
  rw [get?_setValue hok, hn, Option.map_some]
  split <;> exact ⟨_, rfl, rfl, rfl, rfl, List.prefix_refl _⟩

theorem Coherent.insertPath_keeps (h : Coherent t) (hkeeps : s.Keeps t) (names : List String)
    (id : NodeId) : Ends (fun _ => True) (fun r => Coherent r.1 ∧ s.Keeps r.1)
      (t.insertPath id names) := by
  induction names generalizing t id with
  | nil => exact ⟨h, hkeeps⟩
  | cons name names ih =>
    rw [Store.insertPath]
    have hinsert : Ends (fun _ => True) (fun r => Coherent r.1 ∧ s.Keeps r.1)
        (t.orInterrupt (t.insertOrGetChild id name "")) := by
      apply Ends.orInterrupt trivial
      rintro ⟨u, c, created⟩ hok
      exact ⟨h.insertOrGetChild hok, hkeeps.trans (h.insertOrGetChild_keeps hok)⟩
    apply hinsert.bind
    rintro ⟨u, c, created⟩ ⟨hu, hkept⟩
    exact ih hu hkept c

theorem Coherent.mergeRecord_keeps (h : Coherent t) (hkeeps : s.Keeps t) (r : Record) :
    Ends (fun _ => True) (fun u => Coherent u ∧ s.Keeps u) (t.mergeRecord r) := by
  rw [Store.mergeRecord]
  split
  · trivial
  · apply Ends.bind (h.insertPath_keeps hkeeps _ _)
    rintro ⟨u, id⟩ ⟨hu, hkept⟩
    apply Ends.orInterrupt trivial
    intro v hok
    exact ⟨hu.setValue hok, hkept.trans (setValue_keeps hok)⟩

theorem Coherent.merge_keeps (h : Coherent s) (rs : List Record) :
    Ends (fun _ => True) (fun r => s.Keeps r.1) (s.merge rs) := by
  rw [Store.merge]
  have hfold : Ends (fun _ => True) (fun u => Coherent u ∧ s.Keeps u)
      ((sortRecords rs).foldlM Store.mergeRecord s) :=
    Ends.foldlM (fun t r _ ht => ht.1.mergeRecord_keeps ht.2 r) ⟨h, .refl s⟩
  apply hfold.map
  intro t ht
  exact ht.2

/-! ## Values and paths -/

theorem withRecords_of_last (values : List String → Option String) {rs before after : List Record}
    {r : Record} (hsplit : rs = before ++ r :: after) (hlast : ∀ q ∈ after, q.path ≠ r.path) :
    (sortRecords rs).foldl withRecord values (Path.segments r.path) = some r.value := by
  have hfind : (sortRecords rs).reverse.find?
      (fun q => decide (Path.segments q.path = Path.segments r.path)) = some r := by
    simp only [Path.segments_inj]
    rw [findRev_sortRecords, List.find?_eq_some_iff_append]
    refine ⟨decide_eq_true rfl, after.reverse, before.reverse, by simp [hsplit], fun q hq => ?_⟩
    simpa using hlast q (List.mem_reverse.mp hq)
  rw [foldl_withRecord, hfind]

theorem withRecords_of_unnamed (values : List String → Option String) {rs : List Record}
    {names : List String} {value : String} (hnames : ∀ r ∈ rs, Path.segments r.path ≠ names)
    (hvalue : (sortRecords rs).foldl withRecord values names = some value) :
    value = (values names).getD "" := by
  have hfind : (sortRecords rs).reverse.find?
      (fun r => decide (Path.segments r.path = names)) = none := by
    rw [List.find?_eq_none]
    intro r hr
    simpa using hnames r (mem_sortRecords_iff.mp (List.mem_reverse.mp hr))
  rw [foldl_withRecord, hfind] at hvalue
  dsimp only at hvalue
  split at hvalue
  · exact (Option.some.inj hvalue).symm
  · rw [hvalue, Option.getD_some]

/-- A node of a path is one that its names lead to. -/
theorem Coherent.exists_path_iff (h : Coherent s) {path : String} :
    (∃ id n, s.get? id = some n ∧ n.path = path) ↔
      ∃ names, (s.valueAt names).isSome = true ∧ path = Path.ofNames names := by
  constructor
  · rintro ⟨id, n, hn, rfl⟩
    obtain ⟨names, hl⟩ := h.exists_leads hn
    exact ⟨names, h.isSome_valueAt_iff.mpr ⟨id, hl⟩, h.path_eq_of_leads hl hn⟩
  · rintro ⟨names, hsome, rfl⟩
    obtain ⟨id, hl⟩ := h.isSome_valueAt_iff.mp hsome
    obtain ⟨n, hn, hpath⟩ := h.path_of_leads hl
    exact ⟨id, n, hn, hpath⟩

/-- What records make of a store. -/
structure Merges (s : Store) (rs : List Record) (t : Store) : Prop where
  kept : s.Keeps t
  /-- The nodes are those that were there, and those on the way to a record. -/
  paths : ∀ path, (∃ id m, t.get? id = some m ∧ m.path = path) ↔
    (∃ id n, s.get? id = some n ∧ n.path = path) ∨
      ∃ r ∈ rs, ∃ names, names ≠ [] ∧ names <+: Path.segments r.path ∧ path = Path.ofNames names
  /-- The last record of a path has its value. -/
  last : ∀ before r after, rs = before ++ r :: after → (∀ q ∈ after, q.path ≠ r.path) →
    ∃ id m, t.lookup r.path = some id ∧ t.get? id = some m ∧ m.value = r.value
  /-- Without a record of its path a node has the value that it had, and is blank if it is new. -/
  unnamed : ∀ id m, t.get? id = some m → (∀ r ∈ rs, r.path ≠ m.path) →
    (∃ n, s.get? id = some n ∧ m.value = n.value) ∨ s.lookup m.path = none ∧ m.value = ""

section

variable {rs : List Record}

theorem paths_of_values (h : Coherent s) (ht : Coherent t)
    (hvalues : t.valueAt = (sortRecords rs).foldl withRecord s.valueAt) (path : String) :
    (∃ id m, t.get? id = some m ∧ m.path = path) ↔
      (∃ id n, s.get? id = some n ∧ n.path = path) ∨
        ∃ r ∈ rs, ∃ names, names ≠ [] ∧ names <+: Path.segments r.path ∧
          path = Path.ofNames names := by
  simp only [ht.exists_path_iff, h.exists_path_iff, hvalues, isSome_foldl_withRecord_iff,
    mem_sortRecords_iff]
  constructor
  · rintro ⟨names, hsome | ⟨r, hr, hway⟩, rfl⟩
    · exact .inl ⟨names, hsome, rfl⟩
    · by_cases hne : names = []
      · exact .inl ⟨names, h.isSome_valueAt_iff.mpr ⟨root, hne ▸ .root⟩, rfl⟩
      · exact .inr ⟨r, hr, names, hne, hway, rfl⟩
  · rintro (⟨names, hsome, rfl⟩ | ⟨r, hr, names, _, hway, rfl⟩)
    · exact ⟨names, .inl hsome, rfl⟩
    · exact ⟨names, .inr ⟨r, hr, hway⟩, rfl⟩

/-- The values at the ends of names say what became of the nodes that stay. -/
theorem merges_of_values (h : Coherent s) (ht : Coherent t) (hkeeps : s.Keeps t)
    (hvalues : t.valueAt = (sortRecords rs).foldl withRecord s.valueAt) : s.Merges rs t where
  kept := hkeeps
  paths := paths_of_values h ht hvalues
  last := by
    intro before r after hsplit hlast
    have hvalue := withRecords_of_last s.valueAt hsplit hlast
    rw [← hvalues, ht.valueAt_eq_some_iff] at hvalue
    obtain ⟨id, m, hl, hm, hvalue⟩ := hvalue
    have hlookup : t.lookup r.path = some id :=
      ht.lookup_iff_leads.mpr ⟨_, hl, Path.ofNames_segments r.path⟩
    exact ⟨id, m, hlookup, hm, hvalue⟩
  unnamed := by
    intro id m hm hnone
    obtain ⟨names, hl⟩ := ht.exists_leads hm
    have hpath := ht.path_eq_of_leads hl hm
    have hnames : ∀ r ∈ rs, Path.segments r.path ≠ names := by
      rintro r hr rfl
      exact hnone r hr (by rw [hpath, Path.ofNames_segments])
    have hvalue := withRecords_of_unnamed s.valueAt hnames
      (by rw [← hvalues, ht.valueAt_of_leads hl hm])
    cases hold : s.valueAt names with
    | some value =>
      obtain ⟨j, n, hj, hn, rfl⟩ := h.valueAt_eq_some_iff.mp hold
      -- the node that was there is the one that is there now
      obtain ⟨k, hk, _, hpath', _⟩ := hkeeps j n hn
      have hid : j = id := ht.leads_inj ((h.leads_congr ht hn hk hpath' names).mpr hj) hl
      rw [hold, Option.getD_some] at hvalue
      exact .inl ⟨n, hid ▸ hn, hvalue⟩
    | none =>
      rw [hold, Option.getD_none] at hvalue
      refine .inr ⟨?_, hvalue⟩
      rw [Option.eq_none_iff_forall_ne_some]
      intro j hlookup
      obtain ⟨others, hj, hothers⟩ := h.lookup_iff_leads.mp hlookup
      have heq : others = names := Path.ofNames_inj (h.isNodeName_of_leads hj)
        (ht.isNodeName_of_leads hl) (hothers.trans hpath)
      have hsome := h.isSome_valueAt_iff.mpr ⟨j, heq ▸ hj⟩
      rw [hold] at hsome
      cases hsome

theorem Coherent.merges (h : Coherent s) {n : Nat} (hmerge : s.merge rs = .ok (t, n)) :
    n = rs.length ∧ s.Merges rs t := by
  have hkeeps := h.merge_keeps rs
  rw [hmerge] at hkeeps
  by_cases hrs : ∀ r ∈ rs, r.Loadable
  · obtain ⟨u, hok, hu, hvalues⟩ := h.merge_of_loadable hrs
    rw [hok] at hmerge
    cases hmerge
    exact ⟨rfl, merges_of_values h hu hkeeps hvalues⟩
  · obtain ⟨r, hr, hno⟩ : ∃ r ∈ rs, ¬ r.Loadable := by simpa using hrs
    obtain ⟨_, _, _, _, hstop, _⟩ := h.merge_of_not_loadable hr hno
    rw [hstop] at hmerge
    cases hmerge

end

end Store

/-- A merge into a store that changes have made counts the records. All nodes stay where they are,
the nodes on the way to a record are added, and each record that is the last of its path gives its
value. Records of different paths can be merged in any order. -/
theorem merges_run (changes : List Change) {rs : List Record} {t : Store} {n : Nat}
    (hmerge : (Change.run changes).merge rs = .ok (t, n)) :
    n = rs.length ∧ (Change.run changes).Merges rs t ∧
      ((rs.map (·.path)).Nodup →
        ∀ rs' : List Record, rs'.Perm rs → (Change.run changes).merge rs' = .ok (t, n)) := by
  obtain ⟨hcount, hmerges⟩ := (Change.coherent_run changes).merges hmerge
  refine ⟨hcount, hmerges, fun hpaths rs' hperm => ?_⟩
  rw [Store.merge_eq_of_perm _ hperm hpaths, hmerge]

theorem merges_run_overwritten : ∃ t,
    (Change.run [.insertOrGetChild Store.root "a" "1"]).merge [⟨"b.c", "x"⟩, ⟨"a", "2"⟩] =
        .ok (t, 2) ∧
      (∃ id m, t.lookup "a" = some id ∧ t.get? id = some m ∧ m.value = "2") ∧
      (∃ id m, t.get? id = some m ∧ m.path = "b") ∧
      (Change.run [.insertOrGetChild Store.root "a" "1"]).merge [⟨"a", "2"⟩, ⟨"b.c", "x"⟩] =
        .ok (t, 2) := by
  let changes : List Change := [.insertOrGetChild Store.root "a" "1"]
  have hall : ∀ r ∈ [(⟨"b.c", "x"⟩ : Record), ⟨"a", "2"⟩], r.Loadable := by
    simp only [List.forall_mem_cons, List.not_mem_nil, false_imp_iff, implies_true, and_true]
    exact ⟨⟨by decide +kernel, by decide +kernel, by decide +kernel⟩,
      by decide +kernel, by decide +kernel, by decide +kernel⟩
  obtain ⟨t, hok, _⟩ := (Change.coherent_run changes).merge_of_loadable hall
  obtain ⟨_, hmerges, hperm⟩ := merges_run changes hok
  have hway : ["b"] <+: Path.segments "b.c" := by decide +kernel
  exact ⟨t, hok, hmerges.last [⟨"b.c", "x"⟩] ⟨"a", "2"⟩ [] rfl (by simp),
    (hmerges.paths "b").mpr (.inr ⟨⟨"b.c", "x"⟩, by simp, ["b"], by simp, hway, rfl⟩),
    hperm (by decide) _ (.swap ..)⟩

end TreeDatabase
