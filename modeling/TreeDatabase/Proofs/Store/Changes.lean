import TreeDatabase.Proofs.Store.Deletion
import TreeDatabase.Proofs.Store.Outcome
import TreeDatabase.Proofs.Store.Renaming

/-!
# Sequences of changes

Whatever is asked of a store that began empty, with whatever handles, names and records, its tree,
its index and its free slots agree afterwards.
-/

namespace TreeDatabase

namespace Store

/-! ## Completing rules -/

theorem isNodeName_kind (kind : RuleKind) : isNodeName kind.name = true := by
  cases kind <;> decide

theorem isNodeName_ruleSubtree : isNodeName Vocabulary.ruleSubtree = true := by decide

theorem Coherent.ensureRuleSubtree {s : Store} (h : Coherent s) :
    ∃ t id, s.ensureRuleSubtree = .ok (t, id) ∧ Coherent t := by
  obtain ⟨r, hr, _⟩ := h.tree.root
  obtain ⟨t, id, created, hok⟩ := h.insertOrGetChild_isOk "" hr isNodeName_ruleSubtree
  exact ⟨t, id, by rw [Store.ensureRuleSubtree, hok]; rfl, h.insertOrGetChild hok⟩

/-- An insertion leaves no handle without its node. -/
theorem Coherent.live_of_insertOrGetChild {s t : Store} (h : Coherent s) {parent id j : NodeId}
    {name value : String} {created : Bool} {n : Node}
    (hok : s.insertOrGetChild parent name value = .ok (t, id, created)) (hn : s.get? j = some n) :
    ∃ m, t.get? j = some m := by
  rcases h.insertOrGetChild_cases parent name value with
    ⟨_, _, _, he⟩ | ⟨u, c, he, _, _, ⟨hfresh, above, hp, hu⟩, _⟩ | ⟨_, he, _⟩
  · rw [he] at hok
    cases hok
    exact ⟨n, hn⟩
  · rw [he] at hok
    cases hok
    rw [hu]
    split
    · exact ⟨_, rfl⟩
    · split
      · exact ⟨_, rfl⟩
      · exact ⟨n, hn⟩
  · rw [he] at hok
    cases hok

theorem Coherent.addDefaults {s : Store} (h : Coherent s) {ruleset : NodeId} {n : Node}
    (hn : s.get? ruleset = some n) (kinds : List RuleKind) :
    ∃ t count, s.addDefaults ruleset kinds = .ok (t, count) ∧ Coherent t := by
  induction kinds generalizing s n with
  | nil => exact ⟨s, 0, rfl, h⟩
  | cons kind kinds ih =>
    obtain ⟨t, id, created, hok⟩ :=
      h.insertOrGetChild_isOk kind.default hn (isNodeName_kind kind)
    obtain ⟨m, hm⟩ := h.live_of_insertOrGetChild hok hn
    obtain ⟨u, count, hrest, hu⟩ := ih (h.insertOrGetChild hok) hm
    refine ⟨u, (if created then 1 else 0) + count, ?_, hu⟩
    simp only [Store.addDefaults, hok, bind, Except.bind, hrest, pure, Except.pure]

theorem Coherent.ensureDefaultRuleset {s : Store} (h : Coherent s) (ruleset : String) :
    ∃ t count, s.ensureDefaultRuleset ruleset = .ok (t, count) ∧ Coherent t := by
  cases hl : s.lookup (childPath Vocabulary.ruleSubtree ruleset) with
  | none => exact ⟨s, 0, by rw [Store.ensureDefaultRuleset, hl], h⟩
  | some id =>
    obtain ⟨n, hn, _⟩ := h.lookup_iff.mp hl
    obtain ⟨t, count, hok, ht⟩ := h.addDefaults hn RuleKind.all
    exact ⟨t, count, by rw [Store.ensureDefaultRuleset, hl]; exact hok, ht⟩

end Store

/-! ## Changes -/

/-- What can be asked of a store. Handles may be those of deleted nodes or of none at all. -/
inductive Change where
  | insertOrGetChild (parent : NodeId) (name value : String)
  | setValue (id : NodeId) (value : String)
  | deleteChild (parent : NodeId) (name : String)
  | renameChild (parent : NodeId) (oldName newName : String)
  | ensureRuleSubtree
  | ensureDefaultRuleset (ruleset : String)
  | load (records : List Record)
  | merge (records : List Record)

namespace Change

/-- The store after a change that does nothing when it is refused. -/
def orKeep {α : Type} (s : Store) (store : α → Store) : Except StoreFault α → Store
  | .ok a => store a
  | .error _ => s

/-- The store after a change that may be interrupted. -/
def orLeft : Except Interruption (Store × Nat) → Store
  | .ok (s, _) => s
  | .error stop => stop.store

/-- The store after a change, whether it was refused or not. -/
def apply (s : Store) : Change → Store
  | insertOrGetChild parent name value =>
    orKeep s Prod.fst (s.insertOrGetChild parent name value)
  | setValue id value => orKeep s (fun t => t) (s.setValue id value)
  | deleteChild parent name => (s.deleteChild parent name).1
  | renameChild parent oldName newName =>
    orKeep s Prod.fst (s.renameChild parent oldName newName)
  | ensureRuleSubtree => orKeep s Prod.fst s.ensureRuleSubtree
  | ensureDefaultRuleset ruleset => orKeep s Prod.fst (s.ensureDefaultRuleset ruleset)
  | load records => orLeft (s.load records)
  | merge records => orLeft (s.merge records)

/-- The store that changes make of the empty one. -/
def run (changes : List Change) : Store := changes.foldl apply Store.empty

theorem coherent_orKeep {α : Type} {s : Store} (h : Store.Coherent s) {store : α → Store}
    {x : Except StoreFault α} (hx : ∀ a, x = .ok a → Store.Coherent (store a)) :
    Store.Coherent (orKeep s store x) := by
  cases x with
  | ok a => exact hx a rfl
  | error fault => exact h

theorem coherent_orLeft {x : Except Interruption (Store × Nat)}
    (h : Ends Store.Coherent (fun r => Store.Coherent r.1) x) : Store.Coherent (orLeft x) := by
  cases x with
  | ok r => exact h
  | error stop => exact h

/-- Every change keeps a store coherent. -/
theorem coherent_apply {s : Store} (h : Store.Coherent s) (change : Change) :
    Store.Coherent (apply s change) := by
  cases change with
  | insertOrGetChild parent name value =>
    exact coherent_orKeep h fun _ hok => h.insertOrGetChild hok
  | setValue id value => exact coherent_orKeep h fun _ hok => h.setValue hok
  | deleteChild parent name => exact h.deleteChild parent name
  | renameChild parent oldName newName => exact coherent_orKeep h fun _ hok => h.renameChild hok
  | ensureRuleSubtree =>
    obtain ⟨t, id, hok, ht⟩ := h.ensureRuleSubtree
    rw [apply, hok]
    exact ht
  | ensureDefaultRuleset ruleset =>
    obtain ⟨t, count, hok, ht⟩ := h.ensureDefaultRuleset ruleset
    rw [apply, hok]
    exact ht
  | load records => exact coherent_orLeft (h.load records)
  | merge records => exact coherent_orLeft (h.merge records)

theorem coherent_run (changes : List Change) : Store.Coherent (run changes) := by
  suffices h : ∀ s, Store.Coherent s → Store.Coherent (changes.foldl apply s) from
    h Store.empty Store.coherent_empty
  induction changes with
  | nil => exact fun s h => h
  | cons change changes ih => exact fun s h => ih _ (coherent_apply h change)

end Change

/-! ## The whole store -/

/-- What the parts of a store have to do with each other, said of the store as a whole. -/
structure Store.WellFormed (s : Store) : Prop where
  root : ∃ n, s.nodes[0]? = some (some n) ∧ n.name = "" ∧ n.path = "" ∧ n.parent = none
  /-- Every other node has a parent, which lists it once. -/
  parent : ∀ id n, s.get? id = some n → id ≠ Store.root → ∃ p m, n.parent = some p ∧
    s.get? p = some m ∧ m.children.count id = 1
  /-- Every child that is listed has a node, which points back. -/
  child : ∀ id n c, s.get? id = some n → c ∈ n.children → ∃ m, s.get? c = some m ∧
    m.parent = some id
  /-- Every node is reached from the root, and its path is made of the names on the way. -/
  path : ∀ id n, s.get? id = some n → ∃ names, s.Leads names id ∧ n.path = Path.ofNames names
  name : ∀ id n, s.get? id = some n → id ≠ Store.root →
    n.name ≠ "" ∧ '.' ∉ n.name.toList ∧ ':' ∉ n.name.toList
  siblings : ∀ id n i j m k, s.get? id = some n → i ∈ n.children → j ∈ n.children → i ≠ j →
    s.get? i = some m → s.get? j = some k → m.name ≠ k.name
  /-- The entries of the index are those of the nodes other than the root. -/
  index : ∀ name path id, (∃ paths, s.index[name]? = some paths ∧ paths[path]? = some id) ↔
    id ≠ Store.root ∧ ∃ n, s.get? id = some n ∧ n.name = name ∧ n.path = path
  /-- No name is kept without a path. -/
  indexNonempty : ∀ (name : String) paths, s.index[name]? = some paths → paths.isEmpty = false
  free : s.free.Nodup
  free_iff : ∀ slot, slot ∈ s.free ↔ s.nodes[slot]? = some none

theorem Store.Coherent.wellFormed {s : Store} (h : s.Coherent) : s.WellFormed where
  root := by
    obtain ⟨n, hn, hrest⟩ := h.tree.root
    exact ⟨n, get?_eq_some_iff.mp hn, hrest⟩
  parent := by
    intro id n hn hid
    obtain ⟨p, m, hp, hm, hmem, _⟩ := h.tree.above hn hid
    refine ⟨p, m, hp, hm, ?_⟩
    rw [(h.tree.nodup hm).count, if_pos hmem]
  child := by
    intro id n c hn hc
    exact h.tree.child hn hc
  path := by
    intro id n hn
    obtain ⟨names, hl⟩ := h.exists_leads hn
    have hpath := h.path_eq_of_leads hl hn
    exact ⟨names, hl, hpath⟩
  name := by
    intro id n hn hid
    exact isNodeName_iff.mp (h.tree.name hn hid)
  siblings := by
    intro id n i j m k hn hi hj hne hm hk hname
    exact hne (h.sibling_inj hn hi hj hm hk hname)
  index := by
    intro name path id
    rw [← indexed?_eq_some_iff]
    exact h.indexed?_iff
  indexNonempty := h.indexes.nonempty
  free := h.tracksFree.nodup
  free_iff := h.tracksFree.mem_iff

/-- After any changes the store is well formed. -/
theorem wellFormed_run (changes : List Change) : (Change.run changes).WellFormed :=
  (Change.coherent_run changes).wellFormed

end TreeDatabase
