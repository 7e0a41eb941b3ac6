import Mathlib.Data.List.Flatten
import Mathlib.Data.List.Forall2
import TreeDatabase.Proofs.Operation.Candidates

/-!
# Paths as patterns

A path of a statement is a pattern for the names that lead to a node: it fits them one by one, and
the wildcard fits any name. The nodes that it leads to are found in the order of the tree as a
document, which is that of their positions among the siblings on the way to them.
-/

namespace TreeDatabase

open Store

namespace Store

variable {s : Store} {includeRules : Bool}

/-! ## What fits -/

/-- A name of a path fits a name of a node. -/
def Fits (segment name : String) : Prop := segment = Vocabulary.wildcard ∨ segment = name

/-- A node has the depth of a path, and each name on the way to it fits. -/
def FitsPath (s : Store) (segments : List String) (id : NodeId) : Prop :=
  ∃ names, s.Leads names id ∧ List.Forall₂ Fits segments names

/-- To look at the rules in the end is the same as to look at them at each step. -/
theorem Coherent.finds_iff (h : Coherent s) {segments : List String} {id : NodeId} :
    s.Finds includeRules segments id ↔
      s.FitsPath segments id ∧ (includeRules = true ∨ ¬ s.UnderRules id) := by
  constructor
  · intro hf
    induction hf with
    | root => exact ⟨⟨[], .root, .nil⟩, .inr h.not_underRules_root⟩
    | child _ live member node named admitted ih =>
      obtain ⟨⟨names, hl, hfits⟩, _⟩ := ih
      exact ⟨⟨_, hl.child live member node, List.rel_append hfits (.cons named .nil)⟩, admitted⟩
  · rintro ⟨⟨names, hl, hfits⟩, hadmitted⟩
    induction hl generalizing segments with
    | root =>
      cases hfits
      exact .root
    | @child names parent c n m above live member node ih =>
      obtain ⟨segment, _, hnamed, hlast, hdrop⟩ :=
        List.forall₂_cons_right_iff.mp (List.forall₂_drop_append segments names [m.name] hfits)
      cases hlast
      -- what is not among the rules has a parent that is not, either
      have hparent : includeRules = true ∨ ¬ s.UnderRules parent :=
        hadmitted.imp_right (mt (Statement.underRules_child live member))
      have hf := ih hparent (List.forall₂_take_append segments names [m.name] hfits)
      rw [← List.take_append_drop names.length segments, hdrop]
      exact hf.child live member node hnamed hadmitted

/-! ## Positions -/

/-- The position of a node: the number of the child to take at each step from the root. -/
inductive Stands (s : Store) : List Nat → NodeId → Prop
  | root : Stands s [] root
  | child {position : List Nat} {i : Nat} {id c : NodeId} {n : Node}
      (above : Stands s position id) (live : s.get? id = some n)
      (member : n.children[i]? = some c) : Stands s (position ++ [i]) c

theorem Coherent.stands_unique (h : Coherent s) {position other : List Nat} {id : NodeId}
    (hp : s.Stands position id) (ho : s.Stands other id) : position = other := by
  induction hp generalizing other with
  | root =>
    cases ho with
    | root => rfl
    | child _ live member =>
      exact absurd rfl (h.tree.ne_root_of_mem_children live (List.mem_of_getElem? member))
  | @child position i parent c n _ live member ih =>
    have hmem := List.mem_of_getElem? member
    cases ho with
    | root => exact absurd rfl (h.tree.ne_root_of_mem_children live hmem)
    | @child _ j parent' _ n' above' live' member' =>
      obtain rfl := h.tree.parent_unique live live' hmem (List.mem_of_getElem? member')
      rw [live] at live'
      cases live'
      have hlt := (List.getElem?_eq_some_iff.mp member).1
      rw [ih above', (List.getElem?_inj hlt (h.tree.nodup live)).mp (member.trans member'.symm)]

/-- Positions of one length are in the same order when they are continued. -/
theorem append_lt_append {p q : List Nat} (hlength : p.length = q.length) (hlt : p < q)
    (more more' : List Nat) : p ++ more < q ++ more' := by
  induction p generalizing q with
  | nil =>
    cases q with
    | nil => exact absurd hlt (List.lt_irrefl [])
    | cons j q => simp at hlength
  | cons i p ih =>
    cases q with
    | nil => simp at hlength
    | cons j q =>
      rw [List.cons_append, List.cons_append, List.cons_lt_cons_iff]
      rcases List.cons_lt_cons_iff.mp hlt with hij | ⟨rfl, hrest⟩
      · exact .inl hij
      · exact .inr ⟨rfl, ih (by simpa using hlength) hrest⟩

/-! ## The order of what is found -/

/-- Of two nodes at one depth the first stands before the second. -/
def StandsBefore (s : Store) (depth : Nat) (a b : NodeId) : Prop :=
  ∃ p q, s.Stands p a ∧ s.Stands q b ∧ p.length = depth ∧ q.length = depth ∧ p < q

/-- A step goes from each node to children of it, in order. -/
theorem Coherent.step_sublist (h : Coherent s) (frontier : List NodeId) (segment : String) :
    (s.step includeRules frontier segment).Sublist (frontier.flatMap s.children) := by
  have hnext : (frontier.flatMap fun id => if segment = Vocabulary.wildcard then s.children id
      else (s.child? id segment).toList).Sublist (frontier.flatMap s.children) := by
    refine List.Sublist.flatMap_right frontier fun id _ => ?_
    split
    · exact List.Sublist.refl _
    · cases hchild : s.child? id segment with
      | none => exact List.nil_sublist _
      | some c =>
        obtain ⟨n, _, hn, hc, _⟩ := h.child?_iff.mp hchild
        exact List.singleton_sublist.mpr (mem_children_iff.mpr ⟨n, hn, hc⟩)
  rw [step]
  split
  · exact hnext
  · exact List.filter_sublist.trans hnext

/-- The children of nodes in order are in order. -/
theorem pairwise_children {depth : Nat} {frontier : List NodeId}
    (hdepth : ∀ id ∈ frontier, ∃ p, s.Stands p id ∧ p.length = depth)
    (hfrontier : frontier.Pairwise (s.StandsBefore depth)) :
    (frontier.flatMap s.children).Pairwise (s.StandsBefore (depth + 1)) := by
  have hchild : ∀ {p id c}, s.Stands p id → c ∈ s.children id →
      ∃ i : Nat, s.Stands (p ++ [i]) c := by
    intro p id c hp hc
    obtain ⟨n, hn, hmem⟩ := mem_children_iff.mp hc
    obtain ⟨i, hi⟩ := List.mem_iff_getElem?.mp hmem
    exact ⟨i, hp.child hn hi⟩
  rw [List.pairwise_flatMap]
  constructor
  · intro id hid
    obtain ⟨p, hp, rfl⟩ := hdepth id hid
    rw [List.pairwise_iff_getElem]
    intro i j hi hj hij
    obtain ⟨n, hn, _⟩ := mem_children_iff.mp (List.getElem_mem hi)
    have hmember : ∀ {k} (hk : k < (s.children id).length),
        n.children[k]? = some (s.children id)[k] := by
      intro k hk
      rw [← List.getElem?_eq_getElem hk, children_of_get? hn]
    refine ⟨p ++ [i], p ++ [j], hp.child hn (hmember hi), hp.child hn (hmember hj), by simp,
      by simp, ?_⟩
    exact List.append_left_lt (List.cons_lt_cons_iff.mpr (.inl hij))
  · refine hfrontier.imp ?_
    rintro a b ⟨p, q, hp, hq, hlength, hlength', hlt⟩ c hc d hd
    obtain ⟨i, hi⟩ := hchild hp hc
    obtain ⟨j, hj⟩ := hchild hq hd
    exact ⟨_, _, hi, hj, by simp [hlength], by simp [hlength'],
      append_lt_append (hlength.trans hlength'.symm) hlt [i] [j]⟩

/-- The nodes after each step are at one depth, and in order. -/
theorem Coherent.pairwise_foldl_step (h : Coherent s) {segments : List String} {depth : Nat}
    {frontier : List NodeId} (hdepth : ∀ id ∈ frontier, ∃ p, s.Stands p id ∧ p.length = depth)
    (hfrontier : frontier.Pairwise (s.StandsBefore depth)) :
    (segments.foldl (s.step includeRules) frontier).Pairwise
      (s.StandsBefore (depth + segments.length)) := by
  induction segments generalizing depth frontier with
  | nil => exact hfrontier
  | cons segment segments ih =>
    have hsub : (s.step includeRules frontier segment).Sublist (frontier.flatMap s.children) :=
      h.step_sublist frontier segment
    have hnext : ∀ id ∈ s.step includeRules frontier segment,
        ∃ p, s.Stands p id ∧ p.length = depth + 1 := by
      intro c hc
      obtain ⟨id, hid, hmem⟩ := List.mem_flatMap.mp (hsub.subset hc)
      obtain ⟨p, hp, hlength⟩ := hdepth id hid
      obtain ⟨n, hn, hmem⟩ := mem_children_iff.mp hmem
      obtain ⟨i, hi⟩ := List.mem_iff_getElem?.mp hmem
      exact ⟨_, hp.child hn hi, by simp [hlength]⟩
    have hrest := ih hnext ((pairwise_children hdepth hfrontier).sublist hsub)
    rw [List.foldl_cons, List.length_cons]
    rwa [Nat.add_assoc, Nat.add_comm 1] at hrest

theorem Coherent.pairwise_resolvePath (h : Coherent s) (segments : List String)
    (includeRules : Bool) : (s.resolvePath segments includeRules).Pairwise fun a b =>
      ∃ p q, s.Stands p a.2 ∧ s.Stands q b.2 ∧ p < q := by
  rw [resolvePath_eq]
  split
  · exact .nil
  · have hroot : ∀ id ∈ [root], ∃ p, s.Stands p id ∧ p.length = 0 := by
      intro id hid
      rw [List.mem_singleton.mp hid]
      exact ⟨[], .root, rfl⟩
    have hfound : ((behindRoot segments).foldl (s.step includeRules) [root]).Pairwise
        (s.StandsBefore (0 + (behindRoot segments).length)) :=
      h.pairwise_foldl_step hroot (List.pairwise_singleton _ _)
    rw [List.pairwise_filterMap]
    refine hfound.imp ?_
    rintro a b ⟨p, q, hp, hq, _, _, hlt⟩ _ ha _ hb
    obtain ⟨_, _, rfl⟩ := Option.map_eq_some_iff.mp ha
    obtain ⟨_, _, rfl⟩ := Option.map_eq_some_iff.mp hb
    exact ⟨p, q, hp, hq, hlt⟩

/-! ## Paths without keywords -/

/-- Without keywords a path fits the names that it is made of. -/
theorem fitsPath_iff_leads {segments : List String} {id : NodeId}
    (hwild : Vocabulary.wildcard ∉ segments) : s.FitsPath segments id ↔ s.Leads segments id := by
  have hsame : ∀ names, List.Forall₂ Fits segments names ↔ names = segments := by
    intro names
    constructor
    · intro hfits
      induction hfits with
      | nil => rfl
      | cons hfirst _ ih =>
        rw [List.mem_cons, not_or] at hwild
        rw [hfirst.resolve_left (Ne.symm hwild.1), ih hwild.2]
    · rintro rfl
      exact List.forall₂_same.mpr fun _ _ => .inr rfl
  rw [FitsPath]
  simp only [hsame, exists_eq_right]

/-- The names of a path lead to the node that is looked up, unless they are no names of a path: one
of them holds a dot, or a single one is blank. -/
theorem Coherent.leads_iff_lookup (h : Coherent s) {segments : List String} {id : NodeId} :
    s.Leads segments id ↔ (∀ name ∈ segments, '.' ∉ name.toList) ∧ segments ≠ [""] ∧
      s.lookup (Path.ofNames segments) = some id := by
  rw [h.lookup_iff_leads]
  constructor
  · intro hl
    have hnames := h.isNodeName_of_leads hl
    refine ⟨fun name hname => (isNodeName_iff.mp (hnames name hname)).2.1, ?_, segments, hl, rfl⟩
    rintro rfl
    exact ne_blank_of_isNodeName (hnames "" List.mem_cons_self) rfl
  · rintro ⟨hdots, hblank, names, hl, hpath⟩
    have hnames := h.isNodeName_of_leads hl
    suffices heq : names = segments from heq ▸ hl
    by_cases hnil : segments = []
    · by_contra hne
      rw [hnil] at hpath hne
      exact Path.ofNames_ne_blank hne hnames hpath
    · have hsegments := Path.segments_ofNames_of_not_dot hnil hdots
      rw [← hpath] at hsegments
      by_cases hne : names = []
      · rw [hne, Path.ofNames_nil] at hsegments
        exact absurd hsegments.symm hblank
      · rw [← hsegments, Path.segments_ofNames hne hnames]

/-! ## All paths -/

theorem root_mem_behindRoot_iff {segments : List String} :
    Vocabulary.root ∈ behindRoot segments ↔ Vocabulary.root ∈ segments.tail := by
  cases segments with
  | nil => rfl
  | cons first rest =>
    rw [behindRoot]
    split
    · rfl
    · next hfirst => simp [Ne.symm hfirst]

/-- What a path leads to, told by the tree. -/
structure ResolvesPattern (s : Store) (segments : List String) (includeRules : Bool)
    (found : List (String × NodeId)) : Prop where
  /-- The word for the root leads nowhere unless it comes first. -/
  anchored : Vocabulary.root ∈ segments.tail → found = []
  /-- Just the nodes are found that fit, each with its path, and of the rules none unless they are
  included. -/
  mem : Vocabulary.root ∉ segments.tail → ∀ path id, (path, id) ∈ found ↔
    s.FitsPath (behindRoot segments) id ∧ (includeRules = true ∨ ¬ s.UnderRules id) ∧
      ∃ n, s.get? id = some n ∧ n.path = path
  nodup : (found.map Prod.snd).Nodup
  ordered : found.Pairwise fun a b => ∃ p q, s.Stands p a.2 ∧ s.Stands q b.2 ∧ p < q
  /-- Without keywords it is the node that is looked up, or nothing. -/
  plain : Vocabulary.root ∉ segments → Vocabulary.wildcard ∉ segments → found.length ≤ 1 ∧
    ∀ path id, (path, id) ∈ found ↔ (∀ name ∈ segments, '.' ∉ name.toList) ∧ segments ≠ [""] ∧
      path = Path.ofNames segments ∧ s.lookup path = some id ∧
      (includeRules = true ∨ ¬ s.UnderRules id)

theorem Coherent.nodup_resolvePath (h : Coherent s) (segments : List String)
    (includeRules : Bool) : ((s.resolvePath segments includeRules).map Prod.snd).Nodup := by
  rw [List.nodup_iff_pairwise_ne, List.pairwise_map]
  refine (h.pairwise_resolvePath segments includeRules).imp ?_
  rintro a b ⟨p, q, hp, hq, hlt⟩ heq
  rw [h.stands_unique hp (heq ▸ hq)] at hlt
  exact List.lt_irrefl q hlt

theorem Coherent.mem_resolvePath_iff_fits (h : Coherent s) {segments : List String}
    (hroot : Vocabulary.root ∉ segments.tail) {path : String} {id : NodeId} :
    (path, id) ∈ s.resolvePath segments includeRules ↔ s.FitsPath (behindRoot segments) id ∧
      (includeRules = true ∨ ¬ s.UnderRules id) ∧ ∃ n, s.get? id = some n ∧ n.path = path := by
  rw [h.mem_resolvePath_iff, h.finds_iff, and_assoc]
  exact and_iff_right (mt root_mem_behindRoot_iff.mp hroot)

theorem Coherent.mem_resolvePath_iff_lookup (h : Coherent s) {segments : List String}
    (hroot : Vocabulary.root ∉ segments) (hwild : Vocabulary.wildcard ∉ segments) {path : String}
    {id : NodeId} : (path, id) ∈ s.resolvePath segments includeRules ↔
      (∀ name ∈ segments, '.' ∉ name.toList) ∧ segments ≠ [""] ∧
        path = Path.ofNames segments ∧ s.lookup path = some id ∧
        (includeRules = true ∨ ¬ s.UnderRules id) := by
  have hbehind : behindRoot segments = segments := by
    cases segments with
    | nil => rfl
    | cons first rest =>
      exact if_neg fun hfirst : first = Vocabulary.root => hroot (hfirst ▸ List.mem_cons_self)
  rw [h.mem_resolvePath_iff_fits fun hmem => hroot (List.mem_of_mem_tail hmem), hbehind,
    fitsPath_iff_leads hwild]
  constructor
  · rintro ⟨hl, hadmitted, n, hn, rfl⟩
    obtain ⟨hdots, hblank, hlookup⟩ := h.leads_iff_lookup.mp hl
    have hpath := h.path_eq_of_leads hl hn
    exact ⟨hdots, hblank, hpath, hpath ▸ hlookup, hadmitted⟩
  · rintro ⟨hdots, hblank, rfl, hlookup, hadmitted⟩
    have hl := h.leads_iff_lookup.mpr ⟨hdots, hblank, hlookup⟩
    exact ⟨hl, hadmitted, h.path_of_leads hl⟩

end Store

/-- After any changes, a path leads to the nodes that it fits as a pattern. -/
theorem resolvesPattern_run (changes : List Change) (segments : List String)
    (includeRules : Bool) : (Change.run changes).ResolvesPattern segments includeRules
      ((Change.run changes).resolvePath segments includeRules) where
  anchored hmem := resolvePath_eq_nil_of_mem_tail hmem includeRules
  mem hroot _ _ := (Change.coherent_run changes).mem_resolvePath_iff_fits hroot
  nodup := (Change.coherent_run changes).nodup_resolvePath segments includeRules
  ordered := (Change.coherent_run changes).pairwise_resolvePath segments includeRules
  plain hroot hwild := ⟨length_resolvePath_le _ hwild,
    fun _ _ => (Change.coherent_run changes).mem_resolvePath_iff_lookup hroot hwild⟩

/-- The order is that in which the children were inserted, whatever their names are. -/
example : ((Change.run [.insertOrGetChild root "b" "", .insertOrGetChild root "a" "",
    .insertOrGetChild ⟨2⟩ "x" "", .insertOrGetChild ⟨1⟩ "x" ""]).resolvePath
      ["Root", "Child", "x"] false).map Prod.fst = ["b.x", "a.x"] := by decide +kernel

end TreeDatabase
