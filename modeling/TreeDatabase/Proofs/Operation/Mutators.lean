import TreeDatabase.Proofs.Engine
import TreeDatabase.Proofs.Operation.Removal

/-!
# What operations ask of a store

An operation changes a store through four mutators only. Here it is told with any mutators in their
places. Those that do as expected when they get a node that is there and names that nodes can have
make no difference, whatever they do with other handles and other names: no operation uses any.
-/

namespace TreeDatabase

open Store

/-- Functions that take the places of the mutators of a store. -/
structure Mutators where
  insertOrGetChild : Store → NodeId → String → String → Except StoreFault (Store × NodeId × Bool)
  setValue : Store → NodeId → String → Except StoreFault Store
  deleteChild : Store → NodeId → String → Store × List String
  renameChild : Store → NodeId → String → String → Except StoreFault (Store × Bool)

namespace Mutators

/-- The mutators of a store. -/
def standard : Mutators :=
  ⟨Store.insertOrGetChild, Store.setValue, Store.deleteChild, Store.renameChild⟩

/-- Mutators that do as expected with nodes that are there and names that nodes can have. -/
structure Dependable (m : Mutators) : Prop where
  insertOrGetChild : ∀ {s parent n name}, Coherent s → s.get? parent = some n →
    isNodeName name = true → ∀ value, m.insertOrGetChild s parent name value =
      s.insertOrGetChild parent name value
  setValue : ∀ {s id n}, Coherent s → s.get? id = some n → ∀ value, m.setValue s id value =
    s.setValue id value
  deleteChild : ∀ {s parent n name}, Coherent s → s.get? parent = some n →
    isNodeName name = true → m.deleteChild s parent name = s.deleteChild parent name
  renameChild : ∀ {s parent n oldName newName}, Coherent s → s.get? parent = some n →
    isNodeName oldName = true → isNodeName newName = true →
      m.renameChild s parent oldName newName = s.renameChild parent oldName newName

/-! ## Operations with other mutators -/

section

variable (m : Mutators)

def writeNode (p : Progress) (parent : NodeId) (name : String) (value : Option String) :
    Except Interruption (Progress × NodeId) := do
  let (store, id, created) ←
    p.store.orInterrupt (m.insertOrGetChild p.store parent name (value.getD ""))
  let path := ((store.get? id).map (·.path)).getD ""
  let current := ((store.get? id).map (·.value)).getD ""
  let differs := value.any (· != current)
  let store ← match value with
    | some v => if differs then store.orInterrupt (m.setValue store id v) else .ok store
    | none => .ok store
  let progress : Progress :=
    { store
      lines := p.lines ++ [Statement.writtenLine created path value differs]
      count := p.count + 1
      changed := p.changed || created || differs }
  return (progress, id)

def writeChild (target : NodeId) (p : Progress) (child : String × String) :
    Except Interruption Progress :=
  (m.writeNode p target child.1 (if child.2 = "" then none else some child.2)).map Prod.fst

def writeTarget (s : Statement) (parent : NodeId) (p : Progress) (name : String) :
    Except Interruption Progress := do
  let (p, target) ← m.writeNode p parent name s.selectedValue
  s.children.foldlM (m.writeChild target) p

def writeBelow (s : Statement) (p : Progress) (parent : NodeId) : Except Interruption Progress :=
  (s.writtenNames p.store parent).foldlM (m.writeTarget s parent) p

def write (s : Statement) (store : Store) : Except Interruption (Store × Response) :=
  let parents := (s.candidateParents store).map Prod.snd
  let violations := Ruleset.writeViolations store (s.planWrites store parents)
  if violations ≠ [] then .ok (store, s.refuse violations)
  else do
    let p ← parents.foldlM (m.writeBelow s) { store }
    return (p.store, .counted .write p.lines p.count p.changed)

def deleteTarget (s : Statement) (parent : NodeId) (p : Progress) (target : NodeId) : Progress :=
  match p.store.get? target with
  | none => p
  | some node =>
    if p.store.passes s.filter target then
      let (store, removed) := m.deleteChild p.store parent node.name
      { store
        lines := p.lines ++ removed
        count := p.count + removed.length
        changed := p.changed || !removed.isEmpty }
    else p

def deleteBelow (s : Statement) (p : Progress) (parent : NodeId) : Progress :=
  (s.targets p.store parent).foldl (m.deleteTarget s parent) p

def delete (s : Statement) (store : Store) : Store × Response :=
  let p := ((s.candidateParents store).map Prod.snd).foldl (m.deleteBelow s) { store }
  (p.store, .counted .delete p.lines p.count p.changed)

def renameTarget (s : Statement) (parent : NodeId) (p : Progress) (target : NodeId) :
    Except Interruption Progress :=
  match p.store.get? target with
  | none => .ok p
  | some node =>
    if p.store.passes s.filter target then do
      let (store, accepted) ←
        p.store.orInterrupt (m.renameChild p.store parent node.name s.newName)
      if accepted then
        let newPath := ((store.get? target).map (·.path)).getD ""
        return { store
                 lines := p.lines ++ [Statement.renamedLine node.path newPath]
                 count := p.count + 1
                 changed := p.changed || node.name != s.newName }
      else return { p with store, lines := p.lines ++ [Statement.refusedLine node.path s.newName] }
    else .ok p

def renameBelow (s : Statement) (p : Progress) (parent : NodeId) : Except Interruption Progress :=
  (s.targets p.store parent).foldlM (m.renameTarget s parent) p

def rename (s : Statement) (store : Store) : Except Interruption (Store × Response) := do
  let p ← ((s.candidateParents store).map Prod.snd).foldlM (m.renameBelow s) { store }
  return (p.store, .counted .rename p.lines p.count p.changed)

def ensureRuleSubtree (s : Store) : Except StoreFault (Store × NodeId) :=
  (m.insertOrGetChild s root Vocabulary.ruleSubtree "").map fun (s, id, _) => (s, id)

def addDefaults (s : Store) (ruleset : NodeId) : List RuleKind → Except StoreFault (Store × Nat)
  | [] => .ok (s, 0)
  | kind :: kinds => do
    let (s, _, created) ← m.insertOrGetChild s ruleset kind.name kind.default
    let (s, n) ← addDefaults s ruleset kinds
    return (s, (if created then 1 else 0) + n)

def ensureDefaultRuleset (s : Store) (ruleset : String) : Except StoreFault (Store × Nat) :=
  match s.lookup (childPath Vocabulary.ruleSubtree ruleset) with
  | none => .ok (s, 0)
  | some id => m.addDefaults s id RuleKind.all

def enforce (s : Statement) (store : Store) : Except Interruption (Store × Response) :=
  let violations := Ruleset.enforceViolations store s
  if violations ≠ [] then .ok (store, s.refuse violations)
  else do
    let ruleset := (Ruleset.target? s).getD ""
    let (store, _) ← store.orInterrupt (m.ensureRuleSubtree store)
    let parents := (store.resolvePath s.parents true).map Prod.snd
    let p ← parents.foldlM (m.writeBelow s.withoutBlankChildren) { store }
    let (store, created) ← p.store.orInterrupt (m.ensureDefaultRuleset p.store ruleset)
    let response : Response :=
      { verb := .enforce
        count := p.count
        summary := "Rules set for " ++ ruleset ++ "."
        changed := p.changed || created != 0 }
    return (store, response)

def executeOn (s : Statement) (store : Store) : Except Interruption (Store × Response) :=
  match s.verb with
  | .read => .ok (store, s.read store)
  | .write => m.write s store
  | .delete => .ok (m.delete s store)
  | .rename => m.rename s store
  | .enforce => m.enforce s store
  | verb => .ok (store, .message verb "")

end

/-- Two results that are the same, and what holds of them. -/
def Agree {α : Type} (done : α → Prop) (x y : Except Interruption α) : Prop :=
  x = y ∧ ∀ a, y = .ok a → done a

section

variable {α β : Type} {done : α → Prop} {next : β → Prop} {x y : Except Interruption α}

theorem Agree.mono (h : Agree done x y) {more : α → Prop} (hmore : ∀ a, done a → more a) :
    Agree more x y :=
  ⟨h.1, fun a ha => hmore a (h.2 a ha)⟩

theorem Agree.bind (h : Agree done x y) {f g : α → Except Interruption β}
    (hfg : ∀ a, done a → Agree next (f a) (g a)) : Agree next (x >>= f) (y >>= g) := by
  obtain ⟨rfl, hdone⟩ := h
  cases x with
  | error stop => exact ⟨rfl, fun _ hno => by cases hno⟩
  | ok a => exact hfg a (hdone a rfl)

theorem Agree.bind_eq (h : Agree done x y) {f g : α → Except Interruption β}
    (hfg : ∀ a, done a → f a = g a) : x >>= f = y >>= g := by
  obtain ⟨rfl, hdone⟩ := h
  cases x with
  | error stop => rfl
  | ok a => exact hfg a (hdone a rfl)

theorem Agree.map (h : Agree done x y) {f : α → β} (hf : ∀ a, done a → next (f a)) :
    Agree next (x.map f) (y.map f) := by
  obtain ⟨rfl, hdone⟩ := h
  cases x with
  | error stop => exact ⟨rfl, fun _ hno => by cases hno⟩
  | ok a => exact ⟨rfl, fun b hb => Except.ok.inj hb ▸ hf a (hdone a rfl)⟩

/-- Loops agree whose steps agree as long as something holds that they keep. -/
theorem Agree.foldlM {f g : β → α → Except Interruption β} {items : List α}
    (hfg : ∀ b, ∀ a ∈ items, next b → Agree next (f b a) (g b a)) {b : β} (hb : next b) :
    Agree next (items.foldlM f b) (items.foldlM g b) := by
  induction items generalizing b with
  | nil => exact ⟨rfl, fun c hc => Except.ok.inj hc ▸ hb⟩
  | cons a items ih =>
    rw [List.foldlM_cons, List.foldlM_cons]
    exact (hfg b a List.mem_cons_self hb).bind fun c hc =>
      ih (fun d e he => hfg d e (List.mem_cons_of_mem _ he)) hc

end

/-- What writes keep: a coherent store that has all nodes of before. -/
def Grown (store : Store) (p : Progress) : Prop := p.store.Coherent ∧ store.Keeps p.store

namespace Dependable

variable {m : Mutators} {s : Statement} {p : Progress} {store : Store}

/-! ## Writes -/

theorem writeNode (hm : m.Dependable) (h : Grown store p) {parent : NodeId} {above : Node}
    (hp : p.store.get? parent = some above) {name : String} (hname : isNodeName name = true)
    (value : Option String) :
    Agree (fun r => Grown store r.1 ∧ p.store.Keeps r.1.store ∧ ∃ n, r.1.store.get? r.2 = some n)
      (m.writeNode p parent name value) (Statement.writeNode p parent name value) := by
  obtain ⟨hcoherent, hkeeps⟩ := h
  constructor
  · obtain ⟨t, id, created, hok, ht, hwrote, _⟩ :=
      hcoherent.insertOrGetChild_wrote hp hname (value.getD "")
    obtain ⟨n, hn, _⟩ := hwrote.written hcoherent
    have hset : m.setValue t id = t.setValue id := funext (hm.setValue ht hn)
    rw [Mutators.writeNode, Statement.writeNode, hm.insertOrGetChild hcoherent hp hname, hok]
    cases value with
    | none => rfl
    | some v => simp only [orInterrupt, Except.mapError, bind, Except.bind, hset]
  · rintro ⟨q, id⟩ hq
    obtain ⟨r, target, hr, hcoherent', _, hwrote⟩ :=
      Statement.writeNode_progresses hcoherent hp hname value
    rw [hr] at hq
    cases hq
    obtain ⟨n, hn, _⟩ := hwrote.written hcoherent
    exact ⟨⟨hcoherent', hkeeps.trans hwrote.keeps⟩, hwrote.keeps, n, hn⟩

theorem writeChild (hm : m.Dependable) (h : Grown store p) {target : NodeId} {n : Node}
    (hn : p.store.get? target = some n) {child : String × String}
    (hname : isNodeName child.1 = true) :
    Agree (fun q => Grown store q ∧ ∃ n, q.store.get? target = some n)
      (m.writeChild target p child) (Statement.writeChild target p child) := by
  refine (hm.writeNode h hn hname _).map fun r hr => ?_
  obtain ⟨hgrown, hkeeps, _⟩ := hr
  obtain ⟨k, hk, _⟩ := hkeeps target n hn
  exact ⟨hgrown, k, hk⟩

theorem writeTarget (hm : m.Dependable)
    (hchildren : ∀ child ∈ s.children, isNodeName child.1 = true) (h : Grown store p)
    {parent : NodeId} {above : Node} (hp : p.store.get? parent = some above) {name : String}
    (hname : isNodeName name = true) :
    Agree (Grown store) (m.writeTarget s parent p name) (s.writeTarget parent p name) := by
  refine (hm.writeNode h hp hname s.selectedValue).bind ?_
  rintro ⟨q, target⟩ ⟨hq, _, n, hn⟩
  -- the target stays while its children are written
  have hloop : Agree (fun r => Grown store r ∧ ∃ n, r.store.get? target = some n)
      (s.children.foldlM (m.writeChild target) q)
      (s.children.foldlM (Statement.writeChild target) q) := by
    refine .foldlM (fun r child hchild hr => ?_) ⟨hq, n, hn⟩
    obtain ⟨hr, k, hk⟩ := hr
    exact hm.writeChild hr hk (hchildren child hchild)
  exact hloop.mono fun r hr => hr.1

theorem writeParents (hm : m.Dependable)
    (hchildren : ∀ child ∈ s.children, isNodeName child.1 = true)
    (hselected : isNodeName s.selectedName = true) (h : store.Coherent) {parents : List NodeId}
    (hlive : ∀ parent ∈ parents, ∃ above, store.get? parent = some above) :
    Agree (Grown store) (parents.foldlM (m.writeBelow s) { store })
      (parents.foldlM s.writeBelow { store }) := by
  refine .foldlM (fun q parent hparent hq => ?_) ⟨h, .refl _⟩
  refine .foldlM (fun r name hname hr => ?_) hq
  obtain ⟨n, hn⟩ := hlive parent hparent
  obtain ⟨k, hk, _⟩ := hr.2 parent n hn
  exact hm.writeTarget hchildren hr hk
    (Statement.isNodeName_writtenNames hq.1 (.inr hselected) parent name hname)

theorem write (hm : m.Dependable) (ha : s.Admitted) (h : store.Coherent) :
    m.write s store = s.write store := by
  have hparents := hm.writeParents ha.isNodeName_child ha.isNodeName_selectedName h
    (Statement.live_of_mem_candidateParents (s := s) h)
  rw [Mutators.write, Statement.write, hparents.1]

/-! ## Definitions of rules -/

theorem addDefaults (hm : m.Dependable) {t : Store} (h : t.Coherent) {ruleset : NodeId}
    {n : Node} (hn : t.get? ruleset = some n) (kinds : List RuleKind) :
    m.addDefaults t ruleset kinds = t.addDefaults ruleset kinds := by
  induction kinds generalizing t n with
  | nil => rfl
  | cons kind kinds ih =>
    obtain ⟨u, id, created, hok, hu, hwrote, _⟩ :=
      h.insertOrGetChild_wrote hn (isNodeName_kind kind) kind.default
    obtain ⟨k, hk, _⟩ := hwrote.kept hn
    rw [Mutators.addDefaults, Store.addDefaults, hm.insertOrGetChild h hn (isNodeName_kind kind),
      hok]
    simp only [bind, Except.bind, ih hu hk]

theorem ensureDefaultRuleset (hm : m.Dependable) {t : Store} (h : t.Coherent)
    (ruleset : String) : m.ensureDefaultRuleset t ruleset = t.ensureDefaultRuleset ruleset := by
  rw [Mutators.ensureDefaultRuleset, Store.ensureDefaultRuleset]
  cases hlookup : t.lookup (childPath Vocabulary.ruleSubtree ruleset) with
  | none => rfl
  | some id =>
    obtain ⟨n, hn, _⟩ := h.lookup_iff.mp hlookup
    exact hm.addDefaults h hn RuleKind.all

theorem enforce (hm : m.Dependable) (ha : s.Admitted) (h : store.Coherent) :
    m.enforce s store = s.enforce store := by
  have hrules : m.ensureRuleSubtree store = store.ensureRuleSubtree := by
    obtain ⟨r, hr, _⟩ := h.tree.root
    rw [Mutators.ensureRuleSubtree, Store.ensureRuleSubtree,
      hm.insertOrGetChild h hr isNodeName_ruleSubtree]
  obtain ⟨store₁, rules, hok, h₁⟩ := h.ensureRuleSubtree
  have hlive : ∀ parent ∈ (store₁.resolvePath s.parents true).map Prod.snd,
      ∃ above, store₁.get? parent = some above := by
    intro parent hparent
    obtain ⟨entry, hentry, rfl⟩ := List.mem_map.mp hparent
    obtain ⟨n, hn, _⟩ := (h₁.mem_resolvePath_iff.mp hentry).2.2
    exact ⟨n, hn⟩
  have hchildren : ∀ child ∈ s.withoutBlankChildren.children, isNodeName child.1 = true :=
    fun child hchild => ha.isNodeName_child child (List.mem_filter.mp hchild).1
  have hwrites := hm.writeParents hchildren ha.isNodeName_selectedName h₁ hlive
  rw [Mutators.enforce, Statement.enforce, hrules, hok]
  split
  · rfl
  · refine hwrites.bind_eq fun q hq => ?_
    rw [hm.ensureDefaultRuleset hq.1]

/-! ## Deletions and renamings -/

theorem children_of_missing {t : Store} {id : NodeId} (hid : t.get? id = none) :
    t.children id = [] := by
  rw [List.eq_nil_iff_forall_not_mem]
  intro c hc
  obtain ⟨n, hn, _⟩ := mem_children_iff.mp hc
  rw [hid] at hn
  cases hn

/-- A parent that is gone has no targets. -/
theorem targets_of_missing {t : Store} (h : t.Coherent) {parent : NodeId}
    (hparent : t.get? parent = none) : s.targets t parent = [] := by
  rw [List.eq_nil_iff_forall_not_mem]
  intro target htarget
  have hmem := Statement.mem_children_of_mem_targets h htarget
  rw [children_of_missing hparent] at hmem
  cases hmem

theorem ne_root_of_mem_targets {t : Store} (h : t.Coherent) {parent target : NodeId}
    (htarget : target ∈ s.targets t parent) : target ≠ root := by
  obtain ⟨n, hn, hmem⟩ := mem_children_iff.mp (Statement.mem_children_of_mem_targets h htarget)
  exact h.tree.ne_root_of_mem_children hn hmem

/-- What holds while the targets below one parent are deleted or renamed. -/
def Below (parent : NodeId) (p : Progress) : Prop :=
  p.store.Coherent ∧ ∃ n, p.store.get? parent = some n

theorem deleteTarget (hm : m.Dependable) {parent : NodeId} (h : Below parent p) {target : NodeId}
    (htarget : target ≠ root) :
    m.deleteTarget s parent p target = s.deleteTarget parent p target ∧
      Below parent (s.deleteTarget parent p target) := by
  obtain ⟨hcoherent, above, hp⟩ := h
  constructor
  · rw [Mutators.deleteTarget, Statement.deleteTarget]
    cases hn : p.store.get? target with
    | none => rfl
    | some n =>
      have hname : isNodeName n.name = true := hcoherent.tree.name hn htarget
      simp only [hm.deleteChild hcoherent hp hname]
  · rcases Statement.deleteTarget_cases (s := s) hcoherent parent target with
      ⟨hstore, _⟩ | ⟨_, c, _, _, _, hd, ht, _⟩
    · rw [Below, hstore]
      exact ⟨hcoherent, above, hp⟩
    · obtain ⟨n, hn, hc⟩ := hd.child
      have hkept := hd.kept parent (hcoherent.not_below_child hn hc)
      rw [hn, Option.map_some] at hkept
      exact ⟨ht, _, hkept⟩

theorem deleteBelow (hm : m.Dependable) (h : p.store.Coherent) (parent : NodeId) :
    m.deleteBelow s p parent = s.deleteBelow p parent := by
  have hloop : ∀ (targets : List NodeId) (p : Progress), (∀ target ∈ targets, target ≠ root) →
      Below parent p → targets.foldl (m.deleteTarget s parent) p =
        targets.foldl (s.deleteTarget parent) p := by
    intro targets
    induction targets with
    | nil => exact fun _ _ _ => rfl
    | cons target targets ih =>
      intro p htargets hp
      obtain ⟨heq, hq⟩ := hm.deleteTarget (s := s) hp (htargets target List.mem_cons_self)
      rw [List.foldl_cons, List.foldl_cons, heq]
      exact ih _ (fun other hother => htargets other (List.mem_cons_of_mem _ hother)) hq
  rw [Mutators.deleteBelow, Statement.deleteBelow]
  cases hn : p.store.get? parent with
  | none => rw [targets_of_missing h hn, List.foldl_nil, List.foldl_nil]
  | some n => exact hloop _ p (fun target ht => ne_root_of_mem_targets h ht) ⟨h, n, hn⟩

theorem delete (hm : m.Dependable) (h : store.Coherent) : m.delete s store = s.delete store := by
  have hloop : ∀ (parents : List NodeId) (p : Progress), p.store.Coherent →
      parents.foldl (m.deleteBelow s) p = parents.foldl s.deleteBelow p := by
    intro parents
    induction parents with
    | nil => exact fun _ _ => rfl
    | cons parent parents ih =>
      intro p hp
      rw [List.foldl_cons, List.foldl_cons, hm.deleteBelow hp]
      exact ih _ (Statement.deleteBelow_removes hp parent).coherent
  rw [Mutators.delete, Statement.delete, hloop _ { store } h]

/-- A renamed child leaves no handle without its node. -/
theorem below_of_renameChild (hname : isNodeName s.newName = true) {parent : NodeId}
    (h : Below parent p) (oldName : String) : ∃ t accepted,
      p.store.renameChild parent oldName s.newName = .ok (t, accepted) ∧ t.Coherent ∧
        ∃ n, t.get? parent = some n := by
  obtain ⟨hcoherent, above, hp⟩ := h
  rcases hcoherent.renameChild_cases parent oldName s.newName with
    ⟨_, hno⟩ | ⟨accepted, hok⟩ | ⟨_, target, t, _, _, hok, hrenamed, ht⟩
  · rw [hname] at hno
    cases hno
  · exact ⟨p.store, accepted, hok, hcoherent, above, hp⟩
  · refine ⟨t, true, hok, ht, ?_⟩
    by_cases hb : p.store.Below target parent
    · rw [hrenamed.moved parent hb, hp]
      exact ⟨_, rfl⟩
    · exact ⟨above, (hrenamed.kept parent hb).trans hp⟩

theorem renameTarget (hm : m.Dependable) (hname : isNodeName s.newName = true) {parent : NodeId}
    (h : Below parent p) {target : NodeId} (htarget : target ≠ root) :
    Agree (Below parent) (m.renameTarget s parent p target) (s.renameTarget parent p target) := by
  cases hn : p.store.get? target with
  | none =>
    rw [Mutators.renameTarget, Statement.renameTarget, hn]
    exact ⟨rfl, fun q hq => Except.ok.inj hq ▸ h⟩
  | some n =>
    have hold : isNodeName n.name = true := h.1.tree.name hn htarget
    obtain ⟨above, hp⟩ := h.2
    constructor
    · rw [Mutators.renameTarget, Statement.renameTarget, hn]
      simp only [hm.renameChild h.1 hp hold hname]
    · intro q hq
      cases hpasses : p.store.passes s.filter target with
      | false =>
        rw [Statement.renameTarget_of_not_passes hn hpasses] at hq
        exact Except.ok.inj hq ▸ h
      | true =>
        obtain ⟨t, accepted, hok, ht, hlive⟩ := below_of_renameChild hname h n.name
        obtain ⟨r, hr, hstore, _⟩ := Statement.renameTarget_of_ok hn hpasses hok
        rw [hr] at hq
        cases hq
        exact ⟨hstore ▸ ht, hstore ▸ hlive⟩

theorem renameBelow (hm : m.Dependable) (hname : isNodeName s.newName = true)
    (h : p.store.Coherent) (parent : NodeId) :
    Agree (fun q => q.store.Coherent) (m.renameBelow s p parent) (s.renameBelow p parent) := by
  rw [Mutators.renameBelow, Statement.renameBelow]
  cases hn : p.store.get? parent with
  | none =>
    rw [targets_of_missing h hn]
    exact ⟨rfl, fun q hq => Except.ok.inj hq ▸ h⟩
  | some n =>
    have hloop : Agree (Below parent)
        ((s.targets p.store parent).foldlM (m.renameTarget s parent) p)
        ((s.targets p.store parent).foldlM (s.renameTarget parent) p) :=
      .foldlM (fun q target ht hq => hm.renameTarget hname hq (ne_root_of_mem_targets h ht))
        ⟨h, n, hn⟩
    exact hloop.mono fun q hq => hq.1

theorem rename (hm : m.Dependable) (ha : s.Admitted) (hverb : s.verb = .rename)
    (h : store.Coherent) : m.rename s store = s.rename store := by
  obtain ⟨hblank, hvalid, _⟩ := ha.newNameDemands hverb
  have hname : isNodeName s.newName = true := Statement.isNodeName_of_isValidName hvalid hblank
  have hloop : Agree (fun q => q.store.Coherent)
      (((s.candidateParents store).map Prod.snd).foldlM (m.renameBelow s) { store })
      (((s.candidateParents store).map Prod.snd).foldlM s.renameBelow { store }) :=
    .foldlM (fun q parent _ hq => hm.renameBelow hname hq parent) h
  rw [Mutators.rename, Statement.rename, hloop.1]

/-! ## Operations -/

/-- An admitted statement is executed as it is, whatever the mutators do with handles that have no
node and with names that nodes cannot have. -/
theorem executeOn (hm : m.Dependable) (ha : s.Admitted) (h : store.Coherent) :
    m.executeOn s store = s.executeOn store := by
  rw [Mutators.executeOn, Statement.executeOn]
  cases hverb : s.verb with
  | write => exact hm.write ha h
  | delete => exact congrArg Except.ok (hm.delete h)
  | rename => exact hm.rename ha hverb h
  | enforce => exact hm.enforce ha h
  | read | exit | begin | commit | rollback | comment | error => rfl

end Dependable

theorem dependable_standard : Dependable standard :=
  ⟨fun _ _ _ _ => rfl, fun _ _ _ => rfl, fun _ _ _ => rfl, fun _ _ _ _ => rfl⟩

end Mutators

end TreeDatabase
