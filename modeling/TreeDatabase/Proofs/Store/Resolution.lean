import TreeDatabase.Proofs.Store.Queries

/-!
# Resolving paths

A path of a statement leads from the root to nodes, one name after the other; the wildcard stands
for any name. Unless the rules are included, the way may not touch the rule subtree.
-/

namespace TreeDatabase.Store

variable {s : Store} {includeRules : Bool}

/-- Segments of a path lead from the root to a node. -/
inductive Finds (s : Store) (includeRules : Bool) : List String → NodeId → Prop
  | root : Finds s includeRules [] root
  | child {segments : List String} {segment : String} {id c : NodeId} {n m : Node}
      (above : Finds s includeRules segments id) (live : s.get? id = some n)
      (member : c ∈ n.children) (node : s.get? c = some m)
      (named : segment = Vocabulary.wildcard ∨ segment = m.name)
      (admitted : includeRules = true ∨ ¬ s.UnderRules c) :
      Finds s includeRules (segments ++ [segment]) c

theorem Finds.eq_root {id : NodeId} (h : s.Finds includeRules [] id) : id = Store.root := by
  generalize hsegments : [] = segments at h
  cases h with
  | root => rfl
  | child => simp at hsegments

theorem Finds.parent {segments : List String} {segment : String} {c : NodeId}
    (h : s.Finds includeRules (segments ++ [segment]) c) :
    ∃ id n m, s.Finds includeRules segments id ∧ s.get? id = some n ∧ c ∈ n.children ∧
      s.get? c = some m ∧ (segment = Vocabulary.wildcard ∨ segment = m.name) ∧
      (includeRules = true ∨ ¬ s.UnderRules c) := by
  generalize hall : segments ++ [segment] = all at h
  cases h with
  | root => simp at hall
  | child above live member node named admitted =>
    obtain ⟨rfl, hsegment⟩ := List.append_inj' hall rfl
    cases hsegment
    exact ⟨_, _, _, above, live, member, node, named, admitted⟩

theorem Coherent.live_of_finds (h : Coherent s) {segments : List String} {id : NodeId}
    (hf : s.Finds includeRules segments id) : ∃ n, s.get? id = some n := by
  cases hf with
  | root =>
    obtain ⟨r, hr, _⟩ := h.tree.root
    exact ⟨r, hr⟩
  | child _ _ _ node => exact ⟨_, node⟩

/-- A node is as deep as the path that leads to it is long. -/
theorem leads_of_finds {segments : List String} {id : NodeId}
    (hf : s.Finds includeRules segments id) :
    ∃ names, s.Leads names id ∧ names.length = segments.length := by
  induction hf with
  | root => exact ⟨[], .root, rfl⟩
  | @child segments segment id c n m _ live member node _ _ ih =>
    obtain ⟨names, hl, hlength⟩ := ih
    exact ⟨names ++ [m.name], hl.child live member node, by simp [hlength]⟩

theorem Coherent.not_underRules_root (h : Coherent s) : ¬ s.UnderRules root := by
  rw [h.underRules_iff_leads]
  rintro ⟨names, hl⟩
  cases h.leads_unique hl .root

/-- Without the rules no node of the rule subtree is found. -/
theorem Coherent.not_underRules_of_finds (h : Coherent s) {segments : List String} {id : NodeId}
    (hf : s.Finds false segments id) : ¬ s.UnderRules id := by
  cases hf with
  | root => exact h.not_underRules_root
  | child _ _ _ _ _ admitted => exact admitted.resolve_left (by simp)

/-! ## The search -/

theorem Coherent.mem_step_iff (h : Coherent s) {frontier : List NodeId} {segment : String}
    {c : NodeId} : c ∈ s.step includeRules frontier segment ↔
      ∃ id ∈ frontier, ∃ n m, s.get? id = some n ∧ c ∈ n.children ∧ s.get? c = some m ∧
        (segment = Vocabulary.wildcard ∨ segment = m.name) ∧
        (includeRules = true ∨ ¬ s.UnderRules c) := by
  have hnext : c ∈ (frontier.flatMap fun id =>
        if segment = Vocabulary.wildcard then s.children id else (s.child? id segment).toList) ↔
      ∃ id ∈ frontier, ∃ n m, s.get? id = some n ∧ c ∈ n.children ∧ s.get? c = some m ∧
        (segment = Vocabulary.wildcard ∨ segment = m.name) := by
    simp only [List.mem_flatMap]
    refine exists_congr fun id => and_congr_right fun _ => ?_
    by_cases hw : segment = Vocabulary.wildcard
    · simp only [hw, ↓reduceIte, true_or, and_true, mem_children_iff]
      constructor
      · rintro ⟨n, hn, hc⟩
        obtain ⟨m, hm, _⟩ := h.tree.child hn hc
        exact ⟨n, m, hn, hc, hm⟩
      · rintro ⟨n, m, hn, hc, _⟩
        exact ⟨n, hn, hc⟩
    · simp only [hw, ↓reduceIte, Option.mem_toList, h.child?_iff, false_or, eq_comm (a := segment)]
  rw [step]
  cases includeRules with
  | true => simpa using hnext
  | false =>
    simp only [Bool.false_eq_true, ↓reduceIte, List.mem_filter, hnext, Bool.not_eq_true',
      ← Bool.not_eq_true, h.inRuleSubtree_iff, false_or]
    constructor
    · rintro ⟨⟨id, hid, n, m, hn, hc, hm, hnamed⟩, hr⟩
      exact ⟨id, hid, n, m, hn, hc, hm, hnamed, hr⟩
    · rintro ⟨id, hid, n, m, hn, hc, hm, hnamed, hr⟩
      exact ⟨⟨id, hid, n, m, hn, hc, hm, hnamed⟩, hr⟩

theorem Coherent.mem_foldl_step_iff (h : Coherent s) {before segments : List String}
    {frontier : List NodeId} (hfrontier : ∀ id, id ∈ frontier ↔ s.Finds includeRules before id)
    (id : NodeId) : id ∈ segments.foldl (s.step includeRules) frontier ↔
      s.Finds includeRules (before ++ segments) id := by
  induction segments generalizing before frontier with
  | nil => rw [List.append_nil]; exact hfrontier id
  | cons segment segments ih =>
    have hstep : ∀ c, c ∈ s.step includeRules frontier segment ↔
        s.Finds includeRules (before ++ [segment]) c := by
      intro c
      rw [h.mem_step_iff]
      constructor
      · rintro ⟨p, hp, n, m, hn, hc, hm, hnamed, hr⟩
        exact .child ((hfrontier p).mp hp) hn hc hm hnamed hr
      · intro hf
        obtain ⟨p, n, m, hp, hn, hc, hm, hnamed, hr⟩ := hf.parent
        exact ⟨p, (hfrontier p).mpr hp, n, m, hn, hc, hm, hnamed, hr⟩
    rw [List.foldl_cons, ih hstep, List.append_assoc, List.singleton_append]

/-- The names of a path behind the word for the root. -/
def behindRoot : List String → List String
  | first :: rest => if first = Vocabulary.root then rest else first :: rest
  | [] => []

theorem behindRoot_append {segments : List String} (hne : segments ≠ [])
    (more : List String) : behindRoot (segments ++ more) = behindRoot segments ++ more := by
  cases segments with
  | nil => exact absurd rfl hne
  | cons first rest =>
    rw [List.cons_append, behindRoot, behindRoot]
    split
    · rfl
    · rfl

theorem resolvePath_eq (s : Store) (segments : List String) (includeRules : Bool) :
    s.resolvePath segments includeRules =
      if (behindRoot segments).contains Vocabulary.root then []
      else ((behindRoot segments).foldl (s.step includeRules) [root]).filterMap s.located? := by
  cases segments with
  | nil => rfl
  | cons first rest => rfl

/-- The word for the root leads nowhere behind the first name of a path. -/
theorem resolvePath_eq_nil_of_mem_tail {segments : List String}
    (h : Vocabulary.root ∈ segments.tail) (includeRules : Bool) :
    s.resolvePath segments includeRules = [] := by
  have hbehind : Vocabulary.root ∈ behindRoot segments := by
    cases segments with
    | nil => cases h
    | cons first rest =>
      rw [behindRoot]
      split
      · exact h
      · exact List.mem_cons_of_mem _ h
  rw [resolvePath_eq, if_pos (List.contains_iff_mem.mpr hbehind)]

theorem mem_located?_iff {ids : List NodeId} {path : String} {id : NodeId} :
    (path, id) ∈ ids.filterMap s.located? ↔
      id ∈ ids ∧ ∃ n, s.get? id = some n ∧ n.path = path := by
  simp only [List.mem_filterMap, located?, Option.map_eq_some_iff, Prod.mk.injEq]
  constructor
  · rintro ⟨j, hj, n, hn, hpath, rfl⟩
    exact ⟨hj, n, hn, hpath⟩
  · rintro ⟨hid, n, hn, hpath⟩
    exact ⟨id, hid, n, hn, hpath, rfl⟩

theorem Coherent.mem_resolvePath_iff (h : Coherent s) {segments : List String} {path : String}
    {id : NodeId} : (path, id) ∈ s.resolvePath segments includeRules ↔
      Vocabulary.root ∉ behindRoot segments ∧ s.Finds includeRules (behindRoot segments) id ∧
        ∃ n, s.get? id = some n ∧ n.path = path := by
  have hroot : ∀ j, j ∈ [root] ↔ s.Finds includeRules [] j := by
    intro j
    rw [List.mem_singleton]
    exact ⟨fun hj => hj ▸ .root, fun hf => hf.eq_root⟩
  rw [resolvePath_eq]
  split
  · next hc =>
    simp [List.contains_iff_mem.mp hc]
  · next hc =>
    rw [mem_located?_iff, h.mem_foldl_step_iff hroot, List.nil_append]
    rw [List.contains_iff_mem] at hc
    exact ⟨fun hr => ⟨hc, hr⟩, fun hr => hr.2⟩

/-- A path without wildcards leads to one node at most. -/
theorem length_resolvePath_le (s : Store) {segments : List String}
    (h : Vocabulary.wildcard ∉ segments) :
    (s.resolvePath segments includeRules).length ≤ 1 := by
  have hfold : ∀ (names : List String) (frontier : List NodeId), Vocabulary.wildcard ∉ names →
      frontier.length ≤ 1 → (names.foldl (s.step includeRules) frontier).length ≤ 1 := by
    intro names
    induction names with
    | nil => exact fun frontier _ hlen => hlen
    | cons name names ih =>
      intro frontier hnames hlen
      rw [List.mem_cons, not_or] at hnames
      refine ih _ hnames.2 ?_
      have hnext : (frontier.flatMap fun id => if name = Vocabulary.wildcard then s.children id
          else (s.child? id name).toList).length ≤ 1 := by
        simp only [Ne.symm hnames.1, ↓reduceIte]
        match frontier, hlen with
        | [], _ => simp
        | [id], _ =>
          rw [List.flatMap_singleton]
          exact Option.length_toList_le
      rw [step]
      split
      · exact hnext
      · exact Nat.le_trans (List.length_filter_le _ _) hnext
  have hbehind : Vocabulary.wildcard ∉ behindRoot segments := by
    cases segments with
    | nil => exact h
    | cons first rest =>
      rw [behindRoot]
      split
      · exact fun hm => h (List.mem_cons_of_mem _ hm)
      · exact h
  rw [resolvePath_eq]
  split
  · simp
  · exact Nat.le_trans (List.length_filterMap_le _ _) (hfold _ _ hbehind (by simp))

/-- A path without wildcards leads where its names lead. -/
theorem finds_iff_leads {segments : List String} {id : NodeId}
    (hwild : Vocabulary.wildcard ∉ segments) :
    s.Finds true segments id ↔ s.Leads segments id := by
  constructor
  · intro hf
    induction hf with
    | root => exact .root
    | @child segments segment id c n m above live member node named _ ih =>
      rw [List.mem_append, List.mem_singleton, not_or] at hwild
      rw [named.resolve_left (Ne.symm hwild.2)]
      exact (ih hwild.1).child live member node
  · intro hl
    induction hl with
    | root => exact .root
    | child above live member node ih =>
      rw [List.mem_append, not_or] at hwild
      exact .child (ih hwild.1) live member node (.inr rfl) (.inl rfl)

theorem Coherent.resolvePath_of_leads (h : Coherent s) {segments : List String} {id : NodeId}
    (hwild : Vocabulary.wildcard ∉ segments) (hroot : Vocabulary.root ∉ behindRoot segments)
    (hl : s.Leads (behindRoot segments) id) :
    (s.resolvePath segments true).map Prod.snd = [id] := by
  have hwild' : Vocabulary.wildcard ∉ behindRoot segments := by
    intro hmem
    apply hwild
    cases segments with
    | nil => exact hmem
    | cons first rest =>
      rw [behindRoot] at hmem
      split at hmem
      · exact List.mem_cons_of_mem _ hmem
      · exact hmem
  obtain ⟨n, hn, _⟩ := h.path_of_leads hl
  have hmem : (n.path, id) ∈ s.resolvePath segments true :=
    h.mem_resolvePath_iff.mpr ⟨hroot, (finds_iff_leads hwild').mpr hl, n, hn, rfl⟩
  have hlen : (s.resolvePath segments true).length ≤ 1 := length_resolvePath_le s hwild
  match hpath : s.resolvePath segments true, hmem, hlen with
  | [entry], hmem, _ =>
    rw [← List.mem_singleton.mp hmem]
    rfl

end TreeDatabase.Store
