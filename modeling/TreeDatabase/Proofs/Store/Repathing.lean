import TreeDatabase.Proofs.Store.Changes

/-!
# Paths after a renaming

Names hold no dots, so that the paths which continue the path of a node after a dot are just those
of the nodes below it. A renaming puts its new path in the place of the old one there, and leaves
all other paths as they are, those too which only begin with the same letters.
-/

namespace TreeDatabase

open Store

namespace Path

/-- Whether a path is that of a node, or continues it after a dot. -/
def IsWithin (top path : String) : Prop := path = top ∨ top.toList ++ ['.'] <+: path.toList

instance (top path : String) : Decidable (IsWithin top path) :=
  inferInstanceAs (Decidable (_ ∨ _))

/-- A path with another one in the place of `old`, where it lies within. -/
def rebase (old new path : String) : String :=
  if IsWithin old path then new ++ String.ofList (path.toList.drop old.toList.length) else path

theorem toList_ofNames_append {above below : List String} (ha : above ≠ []) (hb : below ≠ []) :
    (ofNames (above ++ below)).toList =
      (ofNames above).toList ++ '.' :: (ofNames below).toList := by
  rw [ofNames, Text.joinWith, String.intercalate_append_of_ne_nil ha hb]
  simp [ofNames, Text.joinWith]

/-- A path lies within another one when its names begin with those of the other. -/
theorem isWithin_ofNames_iff {above names : List String} (hne : above ≠ [])
    (ha : ∀ name ∈ above, isNodeName name = true) (hn : ∀ name ∈ names, isNodeName name = true) :
    IsWithin (ofNames above) (ofNames names) ↔ above <+: names := by
  constructor
  · rintro (heq | ⟨rest, hrest⟩)
    · obtain rfl := ofNames_inj hn ha heq
      exact List.prefix_refl _
    · have hnames : names ≠ [] := by
        rintro rfl
        simp at hrest
      have hpieces := congrArg (Text.pieces (· == '.')) hrest
      rw [List.append_assoc, List.singleton_append, Text.pieces_append (by simp)] at hpieces
      refine ⟨(Text.pieces (· == '.') rest).map String.ofList, ?_⟩
      rw [← segments_ofNames hne ha, ← segments_ofNames hnames hn, segments, segments,
        Text.splitOn, Text.splitOn, ← List.map_append, hpieces]
  · rintro ⟨below, rfl⟩
    cases below with
    | nil => exact .inl (by rw [List.append_nil])
    | cons name below =>
      refine .inr ⟨(ofNames (name :: below)).toList, ?_⟩
      rw [toList_ofNames_append hne (by simp), List.append_assoc, List.singleton_append]

theorem rebase_ofNames {above other below : List String} (ha : above ≠ []) (ho : other ≠ [])
    (hv : ∀ name ∈ above ++ below, isNodeName name = true) :
    rebase (ofNames above) (ofNames other) (ofNames (above ++ below)) =
      ofNames (other ++ below) := by
  have hwithin : IsWithin (ofNames above) (ofNames (above ++ below)) :=
    (isWithin_ofNames_iff ha (fun name hname => hv name (List.mem_append_left _ hname)) hv).mpr
      (List.prefix_append _ _)
  rw [rebase, if_pos hwithin]
  apply String.toList_inj.mp
  cases below with
  | nil => simp
  | cons name below =>
    rw [toList_ofNames_append ha (by simp), toList_ofNames_append ho (by simp),
      String.toList_append, String.toList_ofList, List.drop_left]

end Path

namespace Store

variable {s t : Store}

/-- A node is the child of a name, by the list of children. -/
def IsChild (s : Store) (parent : NodeId) (name : String) (c : NodeId) : Prop :=
  ∃ p n, s.get? parent = some p ∧ c ∈ p.children ∧ s.get? c = some n ∧ n.name = name

theorem Coherent.child?_iff_isChild (h : Coherent s) {parent c : NodeId} {name : String} :
    s.child? parent name = some c ↔ s.IsChild parent name c := h.child?_iff

/-- What lies below a node is told by the paths. -/
theorem Coherent.isWithin_iff_below (h : Coherent s) {top id : NodeId} {t n : Node}
    (ht : s.get? top = some t) (htop : top ≠ root) (hn : s.get? id = some n) :
    Path.IsWithin t.path n.path ↔ s.Below top id := by
  obtain ⟨above, hl⟩ := h.exists_leads ht
  obtain ⟨names, hl'⟩ := h.exists_leads hn
  have hpath := h.path_eq_of_leads hl ht
  have hpath' := h.path_eq_of_leads hl' hn
  have hne : above ≠ [] := by
    rintro rfl
    exact htop hl.eq_root
  rw [hpath, hpath', Path.isWithin_ofNames_iff hne (h.isNodeName_of_leads hl)
    (h.isNodeName_of_leads hl')]
  constructor
  · rintro ⟨below, rfl⟩
    obtain ⟨top', hl'', hb⟩ := hl'.split
    rwa [h.leads_inj hl hl'']
  · intro hb
    obtain ⟨below, hl''⟩ := h.leads_of_below hl hb
    rw [h.leads_unique hl' hl'']
    exact List.prefix_append _ _

/-- One store is another in which a node has a new name, and a new path stands for its old one. -/
def Repathed (s : Store) (target : NodeId) (newName oldPath newPath : String) (t : Store) : Prop :=
  ∀ id, t.get? id = (s.get? id).map fun n =>
    { n with
      name := if id = target then newName else n.name
      path := Path.rebase oldPath newPath n.path }

namespace Renamable

variable {above : List String} {parent target : NodeId} {oldName newName : String} {p : Node}

theorem childPath_eq (h : s.Renamable above parent target oldName newName)
    (hp : s.get? parent = some p) (name : String) :
    childPath p.path name = Path.ofNames (above ++ [name]) := by
  have hpath := h.coherent.path_eq_of_leads h.leads hp
  rw [hpath, Path.ofNames_append_singleton (h.coherent.isNodeName_of_leads h.leads)]

/-- The paths that are rewritten are those at the old path and below it. -/
theorem isWithin_iff_below (h : s.Renamable above parent target oldName newName)
    (hp : s.get? parent = some p) {id : NodeId} {n : Node} (hn : s.get? id = some n) :
    Path.IsWithin (childPath p.path oldName) n.path ↔ s.Below target id := by
  obtain ⟨q, c, hq, hmem, hc, rfl⟩ := h.child
  rw [hp] at hq
  cases hq
  rw [← h.coherent.tree.path_of_mem_children hp hmem hc]
  exact h.coherent.isWithin_iff_below hc (h.coherent.tree.ne_root_of_mem_children hp hmem) hn

/-- A renaming puts the new path in the place of the old one. -/
theorem repathed (h : s.Renamable above parent target oldName newName)
    (hr : s.Renamed target above.length newName t) (hp : s.get? parent = some p) :
    s.Repathed target newName (childPath p.path oldName) (childPath p.path newName) t := by
  intro id
  by_cases hb : s.Below target id
  · rw [hr.moved id hb]
    refine Option.map_congr fun n hn => ?_
    obtain ⟨below, hl, hold, hnew⟩ := h.path_below hb hn
    have hsplit : ∀ name, above ++ name :: below = above ++ [name] ++ below := by simp
    have hvalid := h.coherent.isNodeName_of_leads hl
    rw [renamedNode, hnew, hold, h.childPath_eq hp, h.childPath_eq hp, hsplit, hsplit,
      Path.rebase_ofNames (by simp) (by simp) (hsplit oldName ▸ hvalid)]
  · rw [hr.kept id hb]
    cases hn : s.get? id with
    | none => rfl
    | some n =>
      have hid : id ≠ target := fun heq => hb (heq ▸ .self)
      rw [Option.map_some, if_neg hid, Path.rebase,
        if_neg fun hw => hb ((h.isWithin_iff_below hp hn).mp hw)]

/-- Nothing is left at the old path or below it. -/
theorem vacated (h : s.Renamable above parent target oldName newName)
    (hr : s.Renamed target above.length newName t) (hne : oldName ≠ newName)
    (hp : s.get? parent = some p) {id : NodeId} {m : Node} (hm : t.get? id = some m) :
    ¬ Path.IsWithin (childPath p.path oldName) m.path := by
  by_cases hb : s.Below target id
  · rw [hr.moved id hb] at hm
    obtain ⟨n, hn, rfl⟩ := Option.map_eq_some_iff.mp hm
    obtain ⟨below, hl, _, hnew⟩ := h.path_below hb hn
    rw [h.childPath_eq hp, renamedNode, hnew, Path.isWithin_ofNames_iff (by simp)
      (h.coherent.isNodeName_of_leads h.leads_target) (h.valid_names hl),
      List.prefix_append_right_inj, List.cons_prefix_cons]
    exact fun hprefix => hne hprefix.1
  · rw [hr.kept id hb] at hm
    exact mt (h.isWithin_iff_below hp hm).mp hb

end Renamable

/-! ## Renaming a child -/

/-- What the renaming of a child answers and makes of the store, told by the tree and by the paths
alone. -/
structure RewritesPaths (s : Store) (parent : NodeId) (p : Node) (oldName newName : String) :
    Prop where
  invalid : newName = "" ∨ '.' ∈ newName.toList ∨ ':' ∈ newName.toList →
    s.renameChild parent oldName newName = .error (.invalidNodeName newName) ∧
      Change.apply s (.renameChild parent oldName newName) = s
  missing : newName ≠ "" → '.' ∉ newName.toList → ':' ∉ newName.toList →
    (∀ c, ¬ s.IsChild parent oldName c) →
    s.renameChild parent oldName newName = .ok (s, false)
  taken : oldName ≠ newName → (∃ c, s.IsChild parent newName c) →
    s.renameChild parent oldName newName = .ok (s, false)
  same : oldName = newName → (∃ c, s.IsChild parent oldName c) →
    s.renameChild parent oldName newName = .ok (s, true)
  /-- The child has the new name then, and the new path stands for its old one in all paths: none
  begins with the old one any more. -/
  renamed : ∀ target, newName ≠ "" → '.' ∉ newName.toList → ':' ∉ newName.toList →
    s.IsChild parent oldName target → oldName ≠ newName → (∀ c, ¬ s.IsChild parent newName c) →
    ∃ t, s.renameChild parent oldName newName = .ok (t, true) ∧ t.WellFormed ∧
      s.Repathed target newName (childPath p.path oldName) (childPath p.path newName) t ∧
      ∀ id m, t.get? id = some m → ¬ Path.IsWithin (childPath p.path oldName) m.path

theorem Coherent.child?_eq_none_iff (h : Coherent s) {parent : NodeId} {name : String} :
    s.child? parent name = none ↔ ∀ c, ¬ s.IsChild parent name c := by
  simp only [Option.eq_none_iff_forall_not_mem, Option.mem_def, h.child?_iff_isChild]

theorem Coherent.isNodeName_of_isChild (h : Coherent s) {parent c : NodeId} {name : String}
    (hc : s.IsChild parent name c) : isNodeName name = true := by
  obtain ⟨p, n, hp, hmem, hn, rfl⟩ := hc
  exact h.tree.name_of_mem_children hp hmem hn

theorem Coherent.rewritesPaths (h : Coherent s) {parent : NodeId} {p : Node}
    (hp : s.get? parent = some p) (oldName newName : String) :
    s.RewritesPaths parent p oldName newName := by
  have hvalid : newName ≠ "" → '.' ∉ newName.toList → ':' ∉ newName.toList →
      isNodeName newName = true := fun hblank hdot hcolon =>
    isNodeName_iff.mpr ⟨hblank, hdot, hcolon⟩
  constructor
  · intro hinvalid
    have hname : isNodeName newName = false := by
      rw [← Bool.not_eq_true, isNodeName_iff]
      tauto
    have herror := renameChild_of_invalid (s := s) hname parent oldName
    exact ⟨herror, by rw [Change.apply, herror, Change.orKeep]⟩
  · intro hblank hdot hcolon hmissing
    exact renameChild_of_missing (hvalid hblank hdot hcolon) (h.child?_eq_none_iff.mpr hmissing)
  · rintro hne ⟨other, hother⟩
    have hname := h.isNodeName_of_isChild hother
    cases hchild : s.child? parent oldName with
    | none => exact renameChild_of_missing hname hchild
    | some c => exact renameChild_of_taken hname hchild hne (h.child?_iff_isChild.mpr hother)
  · rintro rfl ⟨c, hc⟩
    exact renameChild_of_same (h.isNodeName_of_isChild hc) (h.child?_iff_isChild.mpr hc)
  · intro target hblank hdot hcolon hchild hne hfree
    obtain ⟨above, hl⟩ := h.exists_leads hp
    have hr : s.Renamable above parent target oldName newName :=
      ⟨h, hl, hchild, hvalid hblank hdot hcolon, h.child?_eq_none_iff.mpr hfree⟩
    obtain ⟨t, hok, hrenamed, ht⟩ := hr.renameChild hne
    exact ⟨t, hok, ht.wellFormed, hr.repathed hrenamed hp,
      fun _ _ hm => hr.vacated hrenamed hne hp hm⟩

end Store

/-- After any changes, the renaming of a child of a node rewrites the paths at the old path and
below it, and no others; where it is refused the store stays as it is. -/
theorem rewritesPaths_run (changes : List Change) {parent : NodeId} {p : Node}
    (hp : (Change.run changes).get? parent = some p) (oldName newName : String) :
    (Change.run changes).RewritesPaths parent p oldName newName :=
  (Change.coherent_run changes).rewritesPaths hp oldName newName

/-- A sibling has a longer name that begins with the old one, and a node below has the old one,
too. -/
theorem rewritesPaths_run_longer_name :
    let s := Change.run [.insertOrGetChild root "a" "", .insertOrGetChild ⟨1⟩ "b" "1",
      .insertOrGetChild ⟨1⟩ "bb" "2", .insertOrGetChild ⟨2⟩ "b" "3"]
    ∃ t, s.renameChild ⟨1⟩ "b" "x" = .ok (t, true) ∧
      [⟨2⟩, ⟨3⟩, ⟨4⟩].map (fun id => (t.get? id).map (·.path)) =
        [some "a.x", some "a.bb", some "a.x.b"] := by
  intro s
  have hparent : s.get? ⟨1⟩ = some ⟨"a", "", "a", some root, [⟨2⟩, ⟨3⟩]⟩ := by decide +kernel
  have hchild : s.IsChild ⟨1⟩ "b" ⟨2⟩ :=
    ⟨_, ⟨"b", "1", "a.b", some ⟨1⟩, [⟨4⟩]⟩, hparent, by decide, by decide +kernel, rfl⟩
  have hfree : ∀ c, ¬ s.IsChild ⟨1⟩ "x" c :=
    (Change.coherent_run _).child?_eq_none_iff.mp (by decide +kernel)
  obtain ⟨t, hok, _, hrepathed, _⟩ := (rewritesPaths_run _ hparent "b" "x").renamed ⟨2⟩
    (by decide) (by decide) (by decide) hchild (by decide) hfree
  refine ⟨t, hok, ?_⟩
  simp only [List.map_cons, List.map_nil, hrepathed ⟨2⟩, hrepathed ⟨3⟩, hrepathed ⟨4⟩]
  decide +kernel

end TreeDatabase
