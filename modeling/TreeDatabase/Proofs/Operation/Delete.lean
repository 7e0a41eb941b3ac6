import TreeDatabase.Operation.Delete
import TreeDatabase.Proofs.Ruleset.Persisted
import TreeDatabase.Proofs.Ruleset.Subtree

/-!
# Deletions

A deletion leaves what it does not delete as it is. A ruleset keeps all of its rules or loses all of
them: rules have no children to pass a filter by, and none can be selected by its name.
-/

namespace TreeDatabase

open Store

namespace Ruleset

/-- The rules of a name are as before, or all of them are gone. -/
def KeepsOrLoses (s t : Store) (name : String) : Prop :=
  (∀ kind, persisted? t name kind = persisted? s name kind) ∨ ∀ kind, persisted? t name kind = none

theorem KeepsOrLoses.trans {s t u : Store} {name : String} (h : KeepsOrLoses s t name)
    (h' : KeepsOrLoses t u name) : KeepsOrLoses s u name := by
  rcases h' with hkeep' | hlose'
  · rcases h with hkeep | hlose
    · exact .inl fun kind => (hkeep' kind).trans (hkeep kind)
    · exact .inr fun kind => (hkeep' kind).trans (hlose kind)
  · exact .inr hlose'

end Ruleset

namespace Store

variable {s t : Store}

theorem Prunes.child?_back (hp : s.Prunes t) (h : Coherent s) (ht : Coherent t)
    {parent id : NodeId} {name : String} (hc : t.child? parent name = some id) :
    s.child? parent name = some id := by
  obtain ⟨m, hm, hpar, hname⟩ := ht.child?_iff_parent.mp hc
  obtain ⟨n, hn, hname', _, _, hpar', _⟩ := hp id m hm
  exact h.child?_iff_parent.mpr ⟨n, hn, hpar'.symm.trans hpar, hname'.symm.trans hname⟩

theorem Prunes.ruleset?_back (hp : s.Prunes t) (h : Coherent s) (ht : Coherent t) {name : String}
    {id : NodeId} (hid : t.ruleset? name = some id) : s.ruleset? name = some id := by
  obtain ⟨rules, hrules, hc⟩ := Option.bind_eq_some_iff.mp hid
  exact Option.bind_eq_some_iff.mpr ⟨rules, hp.child?_back h ht hrules, hp.child?_back h ht hc⟩

theorem Prunes.child?_eq_none (hp : s.Prunes t) (h : Coherent s) (ht : Coherent t)
    {parent : NodeId} {name : String} (hc : s.child? parent name = none) :
    t.child? parent name = none := by
  refine Option.eq_none_iff_forall_ne_some.mpr fun id hid => ?_
  rw [hp.child?_back h ht hid] at hc
  cases hc

theorem Prunes.ruleset?_eq_none (hp : s.Prunes t) (h : Coherent s) (ht : Coherent t)
    {name : String} (hset : s.ruleset? name = none) : t.ruleset? name = none := by
  refine Option.eq_none_iff_forall_ne_some.mpr fun id hid => ?_
  rw [hp.ruleset?_back h ht hid] at hset
  cases hset

namespace Deleted

variable {parent target : NodeId} (hd : s.Deleted parent target t) (h : Coherent s)
  (ht : Coherent t)
include hd h ht

theorem child?_kept {p id : NodeId} {name : String} (hc : s.child? p name = some id)
    (hb : ¬ s.Below target id) :
    t.child? p name = some id ∧ t.valueOf? p name = s.valueOf? p name := by
  obtain ⟨n, hn, hparent, hname⟩ := h.child?_iff_parent.mp hc
  have hm := hd.stays hb hn
  have hc' : t.child? p name = some id := ht.child?_iff_parent.mpr ⟨_, hm, hparent, hname⟩
  exact ⟨hc', by rw [valueOf?_of_child? hc' hm, valueOf?_of_child? hc hn]⟩

theorem ruleset?_kept {name : String} {id : NodeId} (hid : s.ruleset? name = some id)
    (hb : ¬ s.Below target id) : t.ruleset? name = some id := by
  obtain ⟨rules, hrules, hc⟩ := Option.bind_eq_some_iff.mp hid
  obtain ⟨r, _, hr, hmem, _⟩ := h.child?_iff.mp hc
  have hrules' := (hd.child?_kept h ht hrules fun hbr => hb (hbr.child hr hmem)).1
  exact Option.bind_eq_some_iff.mpr ⟨rules, hrules', (hd.child?_kept h ht hc hb).1⟩

theorem ruleset?_gone {name : String} {id : NodeId} (hid : s.ruleset? name = some id)
    (hb : s.Below target id) : t.ruleset? name = none := by
  refine Option.eq_none_iff_forall_ne_some.mpr fun j hj => ?_
  have hsame := hd.prunes.ruleset?_back h ht hj
  rw [hid] at hsame
  cases hsame
  obtain ⟨_, _, hc⟩ := Option.bind_eq_some_iff.mp hj
  obtain ⟨m, hm, _⟩ := ht.child?_iff_parent.mp hc
  exact (hd.live_before hm).1 hb

/-- Below a node that stays, a child that is not the target keeps its value. -/
theorem valueOf?_kept {id : NodeId} {name : String} (hb : ¬ s.Below target id)
    (hne : s.child? id name ≠ some target) : t.valueOf? id name = s.valueOf? id name := by
  cases hc : s.child? id name with
  | none =>
    rw [valueOf?, valueOf?, hc, hd.prunes.child?_eq_none h ht hc]
    rfl
  | some c =>
    refine (hd.child?_kept h ht hc fun hbc => hb ?_).2
    obtain ⟨n, _, hn, hmem, _⟩ := h.child?_iff.mp hc
    refine h.below_parent hn hmem hbc ?_
    rintro rfl
    exact hne hc

/-- A deletion takes a rule away on its own only where it deletes a rule of its ruleset. -/
theorem keepsOrLoses {name : String} (hname : isNodeName name = true) :
    Ruleset.KeepsOrLoses s t name ∨ s.ruleset? name = some parent ∧
      ∃ kind : RuleKind, s.child? parent kind.name = some target := by
  have hs? := fun kind => Ruleset.persisted?_eq h hname kind
  have ht? := fun kind => Ruleset.persisted?_eq ht hname kind
  cases hid : s.ruleset? name with
  | none =>
    have hid' := hd.prunes.ruleset?_eq_none h ht hid
    exact .inl (.inl fun kind => by rw [hs?, ht?, hid, hid']; rfl)
  | some id =>
    by_cases hgone : s.Below target id
    · have hid' := hd.ruleset?_gone h ht hid hgone
      exact .inl (.inr fun kind => by rw [ht?, hid']; rfl)
    · have hid' := hd.ruleset?_kept h ht hid hgone
      by_cases htarget : ∃ kind : RuleKind, s.child? id kind.name = some target
      · obtain ⟨kind, hkind⟩ := htarget
        obtain ⟨p, hp, hmem⟩ := hd.child
        obtain ⟨q, _, hq, hmem', _⟩ := h.child?_iff.mp hkind
        obtain rfl := h.tree.parent_unique hp hq hmem hmem'
        exact .inr ⟨rfl, kind, hkind⟩
      · refine .inl (.inl fun kind => ?_)
        rw [hs?, ht?, hid, hid', Option.bind_some, Option.bind_some]
        exact hd.valueOf?_kept h ht hgone fun hkind => htarget ⟨kind, hkind⟩

end Deleted

end Store

namespace Statement

variable {s : Statement}

/-! ## Sequences of deletions -/

/-- Part of a deletion has been done; the store is as before unless it counts as changed. -/
structure Removes (p q : Progress) : Prop where
  coherent : q.store.Coherent
  prunes : p.store.Prunes q.store
  changed : q.changed = false → p.changed = false ∧ q.store = p.store

namespace Removes

variable {p q r : Progress}

theorem of_store_eq (h : p.store.Coherent) (hstore : q.store = p.store)
    (hchanged : q.changed = p.changed) : Removes p q :=
  ⟨hstore ▸ h, hstore ▸ .refl _, fun hf => ⟨hchanged ▸ hf, hstore⟩⟩

theorem trans (h : Removes p q) (h' : Removes q r) : Removes p r := by
  refine ⟨h'.coherent, h.prunes.trans h'.prunes, ?_⟩
  intro hfalse
  obtain ⟨hq, hrq⟩ := h'.changed hfalse
  obtain ⟨hp, hqp⟩ := h.changed hq
  exact ⟨hp, hrq.trans hqp⟩

theorem foldl {α : Type} {f : Progress → α → Progress}
    (hf : ∀ p a, p.store.Coherent → Removes p (f p a)) {items : List α} (h : p.store.Coherent) :
    Removes p (items.foldl f p) := by
  induction items generalizing p with
  | nil => exact .of_store_eq h rfl rfl
  | cons a items ih =>
    have hstep := hf p a h
    exact hstep.trans (ih hstep.coherent)

end Removes

/-- A target stays when it is gone already or does not pass the filter, and else is deleted. -/
theorem deleteTarget_cases {p : Progress} (h : p.store.Coherent) (parent target : NodeId) :
    ((s.deleteTarget parent p target).store = p.store ∧
      (s.deleteTarget parent p target).changed = p.changed ∧
      ∀ n, p.store.get? target = some n → p.store.passes s.filter target = true →
        p.store.child? parent n.name = none) ∨
    ∃ n c, p.store.get? target = some n ∧ p.store.passes s.filter target = true ∧
      p.store.child? parent n.name = some c ∧
      p.store.Deleted parent c (s.deleteTarget parent p target).store ∧
      (s.deleteTarget parent p target).store.Coherent ∧
      (s.deleteTarget parent p target).changed = true := by
  cases hn : p.store.get? target with
  | none =>
    left
    rw [deleteTarget, hn]
    exact ⟨rfl, rfl, fun n hn' => by cases hn'⟩
  | some n =>
    cases hpasses : p.store.passes s.filter target with
    | false =>
      left
      rw [deleteTarget, hn]
      dsimp only
      rw [hpasses]
      exact ⟨rfl, rfl, fun _ _ hno => by cases hno⟩
    | true =>
      rcases h.deleteChild_cases parent n.name with
        ⟨hnone, hdel⟩ | ⟨c, t, paths, hc, hdel, hne, hd, ht⟩
      · left
        rw [deleteTarget, hn]
        dsimp only
        rw [hpasses, if_pos rfl, hdel]
        refine ⟨rfl, Bool.or_false _, fun m hm _ => ?_⟩
        cases hm
        exact hnone
      · right
        refine ⟨n, c, rfl, rfl, hc, ?_⟩
        rw [deleteTarget, hn]
        dsimp only
        rw [hpasses, if_pos rfl, hdel]
        refine ⟨hd, ht, ?_⟩
        cases paths with
        | nil => exact absurd rfl hne
        | cons path paths => exact Bool.or_true _

theorem deleteTarget_removes {p : Progress} (h : p.store.Coherent) (parent target : NodeId) :
    Removes p (s.deleteTarget parent p target) := by
  rcases deleteTarget_cases (s := s) h parent target with
    ⟨hstore, hchanged, _⟩ | ⟨_, _, _, _, _, hd, ht, hchanged⟩
  · exact .of_store_eq h hstore hchanged
  · refine ⟨ht, hd.prunes, fun hfalse => ?_⟩
    rw [hchanged] at hfalse
    cases hfalse

theorem deleteBelow_removes {p : Progress} (h : p.store.Coherent) (parent : NodeId) :
    Removes p (s.deleteBelow p parent) :=
  Removes.foldl (fun _ target hp => deleteTarget_removes hp parent target) h

/-! ## Rules while nodes are deleted -/

variable {name : String}

theorem deleteTarget_keepsOrLoses {p : Progress} (h : p.store.Coherent)
    (hname : isNodeName name = true) {parent target : NodeId}
    (hother : ∀ n, p.store.get? target = some n → p.store.ruleset? name = some parent →
      ∀ kind : RuleKind, n.name ≠ kind.name) :
    Ruleset.KeepsOrLoses p.store (s.deleteTarget parent p target).store name := by
  rcases deleteTarget_cases (s := s) h parent target with
    ⟨hstore, _⟩ | ⟨n, c, hn, _, hc, hd, ht, _⟩
  · exact .inl fun kind => by rw [hstore]
  · rcases hd.keepsOrLoses h ht hname with hk | ⟨hid, kind, hkind⟩
    · exact hk
    · obtain ⟨m, hm, _, hmn⟩ := h.child?_iff_parent.mp hc
      obtain ⟨m', hm', _, hmk⟩ := h.child?_iff_parent.mp hkind
      rw [hm] at hm'
      cases hm'
      exact absurd (hmn.symm.trans hmk) (hother n hn hid kind)

theorem deleteTargets_keepsOrLoses (hname : isNodeName name = true) {parent : NodeId}
    {targets : List NodeId} {p : Progress} (h : p.store.Coherent)
    (hother : ∀ target ∈ targets, ∀ n, p.store.get? target = some n →
      p.store.ruleset? name = some parent → ∀ kind : RuleKind, n.name ≠ kind.name) :
    Ruleset.KeepsOrLoses p.store (targets.foldl (s.deleteTarget parent) p).store name := by
  induction targets generalizing p with
  | nil => exact .inl fun _ => rfl
  | cons target targets ih =>
    have hremoves := deleteTarget_removes (s := s) h parent target
    refine (deleteTarget_keepsOrLoses h hname (hother target List.mem_cons_self)).trans
      (ih hremoves.coherent ?_)
    intro other hmem m hm hid kind
    obtain ⟨n, hn, hnn, _⟩ := hremoves.prunes other m hm
    rw [hnn]
    exact hother other (List.mem_cons_of_mem _ hmem) n hn
      (hremoves.prunes.ruleset?_back h hremoves.coherent hid) kind

theorem deleteTargets_gone (hfilter : s.filter.isEmpty = true) {parent : NodeId}
    {targets : List NodeId} {p : Progress} (h : p.store.Coherent)
    (hchild : ∀ target ∈ targets, ∀ n, p.store.get? target = some n → n.parent = some parent) :
    ∀ target ∈ targets, (targets.foldl (s.deleteTarget parent) p).store.get? target = none := by
  induction targets generalizing p with
  | nil => simp
  | cons target targets ih =>
    have hremoves := deleteTarget_removes (s := s) h parent target
    have hstays : ∀ {q r : Progress}, Removes q r → q.store.get? target = none →
        r.store.get? target = none := by
      intro q r hqr hnone
      cases hr : r.store.get? target with
      | none => rfl
      | some m =>
        obtain ⟨n, hn, _⟩ := hqr.prunes target m hr
        rw [hnone] at hn
        cases hn
    have hgone : (s.deleteTarget parent p target).store.get? target = none := by
      have hpasses : p.store.passes s.filter target = true := by
        rw [Store.passes, hfilter, Bool.true_or]
      rcases deleteTarget_cases (s := s) h parent target with
        ⟨hstore, _, hnone⟩ | ⟨n, c, hn, _, hc, hd, _⟩
      · cases hn : p.store.get? target with
        | none => rw [hstore, hn]
        | some n =>
          have hc := h.child?_iff_parent.mpr ⟨n, hn, hchild target List.mem_cons_self n hn, rfl⟩
          rw [hnone n hn hpasses] at hc
          cases hc
      · have hc' := h.child?_iff_parent.mpr ⟨n, hn, hchild target List.mem_cons_self n hn, rfl⟩
        rw [hc] at hc'
        cases hc'
        exact hd.gone _ .self
    intro other hmem
    rw [List.foldl_cons]
    rcases List.mem_cons.mp hmem with rfl | hmem
    · exact hstays (.foldl (fun _ t hq => deleteTarget_removes hq parent t) hremoves.coherent) hgone
    · refine ih hremoves.coherent (fun t ht m hm => ?_) other hmem
      obtain ⟨n, hn, _, _, _, hpar, _⟩ := hremoves.prunes t m hm
      exact hpar.trans (hchild t (List.mem_cons_of_mem _ ht) n hn)

theorem deleteTargets_of_not_passes {parent : NodeId} {targets : List NodeId} {p : Progress}
    (hnot : ∀ target ∈ targets, p.store.passes s.filter target = false) :
    targets.foldl (s.deleteTarget parent) p = p := by
  induction targets with
  | nil => rfl
  | cons target targets ih =>
    have hsame : s.deleteTarget parent p target = p := by
      rw [deleteTarget, hnot target List.mem_cons_self]
      cases p.store.get? target <;> rfl
    rw [List.foldl_cons, hsame]
    exact ih fun t ht => hnot t (List.mem_cons_of_mem _ ht)

/-- No rule of a ruleset passes a filter with items, for want of children. -/
theorem passes_rule {store : Store} (h : store.Coherent) (hshape : store.RuleShape)
    {ruleset rule : NodeId} (hid : store.ruleset? name = some ruleset)
    (hrule : rule ∈ store.children ruleset) (filter : Filter) :
    store.passes filter rule = filter.isEmpty := by
  obtain ⟨n, hn, hmem⟩ := mem_children_iff.mp hrule
  obtain ⟨m, hm, _⟩ := h.tree.child hn hmem
  have hl := (h.leads_ruleset_iff.mpr hid).child hn hmem hm
  rw [passes, hshape.children_eq_nil h hl]
  exact Bool.or_false _

/-- The wildcard stands for all rules of a ruleset, or for none when the path does not name the
rules. -/
theorem targets_ruleset {store : Store} (h : store.Coherent) {ruleset : NodeId}
    (hid : store.ruleset? name = some ruleset) (hall : s.selectsAll = true) :
    s.targets store ruleset = if s.includesRules then store.children ruleset else [] := by
  rw [targets, if_pos hall]
  cases s.includesRules with
  | true => simp
  | false =>
    rw [List.filter_eq_nil_iff.mpr]
    · rfl
    · intro rule hrule
      obtain ⟨n, hn, hmem⟩ := mem_children_iff.mp hrule
      obtain ⟨m, hm, _⟩ := h.tree.child hn hmem
      have hl := (h.leads_ruleset_iff.mpr hid).child hn hmem hm
      have hu := h.inRuleSubtree_iff.mpr (h.underRules_iff_leads.mpr ⟨[name, m.name], hl⟩)
      simp [hu]

/-- Deleting all rules of a ruleset that pass the filter deletes all of them or none. -/
theorem deleteRules_keepsOrLoses {p : Progress} (h : p.store.Coherent)
    (hshape : p.store.RuleShape) (hname : isNodeName name = true) {ruleset : NodeId}
    (hid : p.store.ruleset? name = some ruleset) : Ruleset.KeepsOrLoses p.store
      ((p.store.children ruleset).foldl (s.deleteTarget ruleset) p).store name := by
  cases hfilter : s.filter.isEmpty with
  | false =>
    left
    rw [deleteTargets_of_not_passes fun rule hrule => by
      rw [passes_rule h hshape hid hrule, hfilter]]
    exact fun _ => rfl
  | true =>
    right
    intro kind
    have hremoves : Removes p ((p.store.children ruleset).foldl (s.deleteTarget ruleset) p) :=
      .foldl (fun _ t hq => deleteTarget_removes hq ruleset t) h
    have hchild : ∀ rule ∈ p.store.children ruleset, ∀ n, p.store.get? rule = some n →
        n.parent = some ruleset := by
      intro rule hrule n hn
      obtain ⟨m, hm, hmem⟩ := mem_children_iff.mp hrule
      exact h.tree.parent_of_mem_children hm hmem hn
    have hgone := deleteTargets_gone hfilter h hchild
    generalize (p.store.children ruleset).foldl (s.deleteTarget ruleset) p = q at hremoves hgone
    have hq := hremoves.coherent
    rw [Ruleset.persisted?_eq hq hname]
    cases hid' : q.store.ruleset? name with
    | none => rfl
    | some id =>
      have hback := hremoves.prunes.ruleset?_back h hq hid'
      rw [hid] at hback
      cases hback
      rw [Option.bind_some, valueOf?_eq_none_iff hq]
      cases hc : q.store.child? ruleset kind.name with
      | none => rfl
      | some c =>
        obtain ⟨n, _, hn, hmem, _⟩ := h.child?_iff.mp (hremoves.prunes.child?_back h hq hc)
        obtain ⟨m, hm, _⟩ := hq.child?_iff_parent.mp hc
        rw [hgone c (mem_children_iff.mpr ⟨n, hn, hmem⟩)] at hm
        cases hm

theorem deleteBelow_keepsOrLoses {p : Progress} (h : p.store.Coherent)
    (hshape : p.store.RuleShape) (hname : isNodeName name = true)
    (hselected : ∀ kind : RuleKind, s.selectedName ≠ kind.name) (parent : NodeId) :
    Ruleset.KeepsOrLoses p.store (s.deleteBelow p parent).store name := by
  rw [deleteBelow]
  by_cases hid : p.store.ruleset? name = some parent
  · cases hall : s.selectsAll with
    | true =>
      rw [targets_ruleset h hid hall]
      split
      · exact deleteRules_keepsOrLoses h hshape hname hid
      · exact .inl fun _ => rfl
    | false =>
      rw [targets, hall, if_neg Bool.false_ne_true]
      refine deleteTargets_keepsOrLoses hname h fun target htarget n hn _ kind => ?_
      obtain ⟨m, hm, _, hmn⟩ := h.child?_iff_parent.mp (Option.mem_toList.mp htarget)
      rw [hn] at hm
      cases hm
      exact hmn ▸ hselected kind
  · exact deleteTargets_keepsOrLoses hname h fun _ _ _ _ hparent => absurd hparent hid

/-! ## The whole deletion -/

theorem Admitted.selectedName_ne_kind (ha : s.Admitted) (hverb : s.verb = .delete)
    (kind : RuleKind) : s.selectedName ≠ kind.name := by
  have hfaults := ha.verbFaults
  rw [Statement.verbFaults, hverb] at hfaults
  simp only [deleteFaults, List.append_eq_nil_iff, faultIf_eq_nil] at hfaults
  intro he
  have hrule := hfaults.1.1.1.2
  rw [he, Vocabulary.isRuleName, RuleKind.ofName?_name] at hrule
  cases hrule

theorem delete_removes (s : Statement) {store : Store} (h : store.Coherent) :
    (s.delete store).1.Coherent ∧ store.Prunes (s.delete store).1 ∧
      ((s.delete store).2.changed = false → (s.delete store).1 = store) := by
  have hremoves : Removes { store }
      (((s.candidateParents store).map Prod.snd).foldl s.deleteBelow { store }) :=
    .foldl (fun _ parent hp => deleteBelow_removes hp parent) h
  exact ⟨hremoves.coherent, hremoves.prunes, fun hfalse => (hremoves.changed hfalse).2⟩

/-- A deletion takes rules away only with all the other rules of their ruleset. -/
theorem Admitted.delete_keepsOrLoses (ha : s.Admitted) (hverb : s.verb = .delete) {store : Store}
    (h : store.Coherent) (hshape : store.RuleShape) (hname : isNodeName name = true) :
    Ruleset.KeepsOrLoses store (s.delete store).1 name := by
  have hloop : ∀ (parents : List NodeId) (p : Progress), p.store.Coherent → p.store.RuleShape →
      Ruleset.KeepsOrLoses p.store (parents.foldl s.deleteBelow p).store name := by
    intro parents
    induction parents with
    | nil => exact fun p _ _ => .inl fun _ => rfl
    | cons parent parents ih =>
      intro p hp hs
      have hstep := deleteBelow_removes (s := s) hp parent
      exact (deleteBelow_keepsOrLoses hp hs hname (ha.selectedName_ne_kind hverb) parent).trans
        (ih _ hstep.coherent (hstep.prunes.ruleShape hp hstep.coherent hs))
  exact hloop _ { store } h hshape

end Statement

end TreeDatabase
