import TreeDatabase.Proofs.Operation.Settled
import TreeDatabase.Proofs.Ruleset.Definition

/-!
# Defining again

A definition leaves its ruleset complete, and the rules with the values under which it was checked.
Checked again, it finds the same rules and the same nodes. All that it gives is there, and no
default is missing.
-/

namespace TreeDatabase

open Ruleset Store

namespace Store

variable {s t : Store} {ruleset : NodeId} {kinds : List RuleKind}

/-! ## Complete rulesets -/

/-- To complete a ruleset keeps what was asked for. -/
theorem Completed.settled {count : Nat} {ws : List NodeWrite}
    (hc : s.Completed ruleset kinds t count ws) {request : NodeId × String × Option String}
    (hs : s.Settled request) : t.Settled request := by
  obtain ⟨v, hv, hsame⟩ := hs
  refine ⟨v, ?_, hsame⟩
  by_cases hrule : request.1 = ruleset ∧ ∃ kind : RuleKind, request.2.1 = kind.name
  · obtain ⟨hparent, kind, hname⟩ := hrule
    rw [hparent, hname] at hv ⊢
    rw [hc.values, hv]
    split <;> rfl
  · rw [hc.writes.valueOf?_of_not_mem, hv]
    intro w hmem hparent hname
    obtain ⟨hplace, kind, hkind, _⟩ := hc.places w hmem
    exact hrule ⟨hparent.symm.trans hplace, kind, hname.symm.trans hkind⟩

/-- A complete ruleset gets no defaults. -/
theorem Coherent.addDefaults_of_complete (h : Coherent s)
    (hall : ∀ kind ∈ kinds, ∃ v, s.valueOf? ruleset kind.name = some v) :
    s.addDefaults ruleset kinds = .ok (s, 0) := by
  induction kinds with
  | nil => rfl
  | cons kind kinds ih =>
    obtain ⟨v, hv⟩ := hall kind List.mem_cons_self
    obtain ⟨n, hfound, _⟩ := Option.map_eq_some_iff.mp hv
    obtain ⟨id, hchild, _⟩ := Option.bind_eq_some_iff.mp hfound
    have hrest := ih fun other hmem => hall other (List.mem_cons_of_mem _ hmem)
    simp only [Store.addDefaults, h.insertOrGetChild_of_child? hchild, bind, Except.bind, hrest,
      pure, Except.pure]
    rfl

end Store

/-! ## The same check -/

namespace Ruleset

variable {s : Statement} {store t : Store} {ruleset : String} {ws : List NodeWrite}

/-- After a definition a rule is in force with the value that was left to it. -/
theorem effective_of_enforced (he : s.Enforced ruleset store t ws) (kind : RuleKind) :
    effective t kind ruleset s = s.ruleValue kind (persisted? store ruleset kind) := by
  rw [effective, he.values, Statement.ruleValue]
  cases assigned? s kind <;> rfl

theorem orDefault_of_enforced (he : s.Enforced ruleset store t ws) (kind : RuleKind) :
    orDefault kind (effective t kind ruleset s) =
      orDefault kind (effective store kind ruleset s) := by
  rw [effective_of_enforced he, ruleValue_eq, effective_eq]
  cases givenOrPersisted store ruleset s kind with
  | some v => rfl
  | none =>
    rw [Option.getD_none, Option.getD_none, orDefault, orDefault, if_pos rfl]
    split <;> rfl

theorem definitions_of_enforced (he : s.Enforced ruleset store t ws) :
    definitions t ruleset s = definitions store ruleset s := by
  rw [definitions_eq, definitions_eq]
  split
  · congr 1
    refine List.map_congr_left fun kind hkind => ?_
    have hbound : kind = .max ∨ kind = .min := by simpa using (List.mem_filter.mp hkind).1
    rw [effective_of_enforced he, ruleValue_bound hbound]
  · rfl

theorem reached_of_enforced (h : store.Coherent) (he : s.Enforced ruleset store t ws) {id : NodeId}
    {m : Node} (hm : t.Reached id m) (hout : ¬ t.UnderRules id) :
    ∃ n, store.Reached id n ∧ ¬ store.UnderRules id ∧ m.name = n.name ∧ m.value = n.value := by
  obtain ⟨n, hn, hrest⟩ := outside_of_enforced h he hm.live hout
  exact ⟨n, h.reached_iff.mpr ⟨hm.ne_root, hn⟩, hrest⟩

/-- The nodes that a ruleset governs are those of before. -/
theorem governed_of_enforced (h : store.Coherent) (he : s.Enforced ruleset store t ws) :
    governed t ruleset ⊆ governed store ruleset := by
  intro node hnode
  obtain ⟨⟨path, id⟩, hfound, hheld⟩ := List.mem_filterMap.mp hnode
  obtain ⟨m, hm, hname, _, hout⟩ := (he.writes.coherent h).mem_findByName_iff.mp hfound
  rw [hm.live] at hheld
  cases hheld
  obtain ⟨n, hn, hnout, hsame, hvalue⟩ := reached_of_enforced h he hm (hout.resolve_left (by simp))
  refine List.mem_filterMap.mpr ⟨(n.path, id), ?_, ?_⟩
  · exact h.mem_findByName_iff.mpr ⟨n, hn, hsame.symm.trans hname, rfl, .inr hnout⟩
  · simp only [hn.live, Option.map_some, hvalue]

theorem isUnique_of_enforced (h : store.Coherent) (he : s.Enforced ruleset store t ws)
    {name value : String} (hunique : store.isUnique name value = true) :
    t.isUnique name value = true := by
  rw [(he.writes.coherent h).isUnique_iff]
  intro i j m k hi hj hname hname' hvalue hvalue' hout hout'
  obtain ⟨n, hn, hnout, hsame, hsame'⟩ := reached_of_enforced h he hi hout
  obtain ⟨l, hl, hlout, hlsame, hlsame'⟩ := reached_of_enforced h he hj hout'
  exact h.isUnique_iff.mp hunique i j n l hn hl (hsame.symm.trans hname)
    (hlsame.symm.trans hname') (hsame'.symm.trans hvalue) (hlsame'.symm.trans hvalue') hnout hlout

/-- What a definition is checked for depends on the store by what is unique in it. -/
theorem valueViolation?_of_isUnique {type : ValueType} {kind : RuleKind} {rule : String}
    {node : PendingWrite}
    (hunique : store.isUnique node.name node.value = true → t.isUnique node.name node.value = true)
    (hnone : valueViolation? store .enforce [] type kind rule node = none) :
    valueViolation? t .enforce [] type kind rule node = none := by
  cases kind with
  | type | max | min | required | key => exact hnone
  | unique =>
    rw [valueViolation?] at hnone ⊢
    split at hnone
    · next hraised =>
      rw [if_pos hraised]
      have hold : store.isUnique node.name node.value = true := by simpa using hnone
      simp [hunique hold]
    · next hraised => rw [if_neg hraised]

theorem enforceViolations_of_checked (htarget : target? s = some ruleset)
    (hc : Checked store ruleset s) : enforceViolations store s = [] := by
  have hexists : ¬ (Vocabulary.isRuleName s.selectedName = true ∧
      (!store.rulesetExists ruleset) = true) := by
    rintro ⟨hrule, hmissing⟩
    rw [hc.rulesetExists hrule] at hmissing
    cases hmissing
  rw [enforceViolations, htarget]
  dsimp only
  rw [if_neg hexists, List.filterMap_eq_nil_iff.mpr hc.definitions, if_neg (by simp)]
  cases htype : ValueType.ofName? (orDefault .type (effective store .type ruleset s)) with
  | none => rfl
  | some t => exact hc.governed t htype

/-- After a definition its ruleset is there, with a value for each rule. -/
theorem ruleset?_of_enforced (h : store.Coherent) (he : s.Enforced ruleset store t ws) :
    ∃ id, t.ruleset? ruleset = some id ∧ ∀ kind : RuleKind, ∃ v,
      t.valueOf? id kind.name = some v := by
  have hpersisted : ∀ kind : RuleKind, ∃ v,
      ((t.ruleset? ruleset).bind fun id => t.valueOf? id kind.name) = some v := fun kind =>
    ⟨_, (persisted?_eq (he.writes.coherent h) he.name kind).symm.trans (he.values kind)⟩
  cases hid : t.ruleset? ruleset with
  | none =>
    obtain ⟨v, hv⟩ := hpersisted .type
    rw [hid] at hv
    cases hv
  | some id => exact ⟨id, rfl, fun kind => by simpa [hid] using hpersisted kind⟩

/-- A definition that was checked and carried out passes the same check. -/
theorem checked_of_enforced (h : store.Coherent) (he : s.Enforced ruleset store t ws) :
    Checked t ruleset s where
  rulesetExists _ := by
    obtain ⟨id, hid, _⟩ := ruleset?_of_enforced h he
    rw [rulesetExists, (he.writes.coherent h).lookup_ruleset he.name, hid]
    rfl
  definitions := by
    have hbound : ∀ kind : RuleKind, kind = .max ∨ kind = .min →
        effective t kind ruleset s = effective store kind ruleset s := fun kind hkind => by
      rw [effective_of_enforced he, ruleValue_bound hkind]
    rw [definitions_of_enforced he, orDefault_of_enforced he, hbound .max (.inl rfl),
      hbound .min (.inr rfl)]
    exact he.checked.definitions
  governed := by
    intro type htype
    rw [orDefault_of_enforced he] at htype
    have hold := he.checked.governed type htype
    rw [governedViolations, List.filterMap_eq_nil_iff] at hold ⊢
    intro kind hkind
    rw [List.findSome?_eq_none_iff]
    intro node hnode
    rw [orDefault_of_enforced he]
    have hchecked := List.findSome?_eq_none_iff.mp (hold kind hkind) node
      (governed_of_enforced h he hnode)
    exact valueViolation?_of_isUnique (isUnique_of_enforced h he) hchecked

end Ruleset

/-! ## The same definition -/

namespace Statement

variable {s : Statement} {store t : Store} {ruleset : String}

theorem Definable.exists_leads (hd : s.Definable ruleset store) (h : store.Coherent)
    {rules : NodeId} (hrules : store.child? root Vocabulary.ruleSubtree = some rules) :
    ∃ parent, store.Leads (behindRoot s.parents) parent := by
  cases hd.defining with
  | ruleset path => exact ⟨rules, path ▸ h.leads_singleton_iff.mpr hrules⟩
  | rule path name =>
    obtain ⟨id, hid⟩ := hd.exists_ruleset name
    exact ⟨id, path ▸ h.leads_ruleset_iff.mpr hid⟩

/-- A definition writes one name below the one parent that its path leads to. -/
theorem Definable.places_eq (hd : s.Definable ruleset store) (u : Store) (parent : NodeId) :
    s.withoutBlankChildren.places u [parent] = [(parent, s.selectedName)] := by
  have hselected : s.withoutBlankChildren.selectedName ≠ Vocabulary.wildcard := hd.path_names.2.2
  rw [places, List.flatMap_singleton, writtenNames, if_neg hselected]
  rfl

/-- What a definition gives is there once it is carried out. -/
theorem Steps.settledAt (steps : s.Steps store) (h : store.Coherent)
    (hchildren : s.childNames.Nodup) :
    ∃ parent, steps.completed.Leads (behindRoot s.parents) parent ∧
      s.withoutBlankChildren.SettledAt steps.completed (parent, s.selectedName) := by
  obtain ⟨created, hbegun, hwrote, _⟩ := steps.begins h
  have hd := steps.definable
  obtain ⟨hwild, hroot, hselected⟩ := hd.path_names
  have hrules : steps.begun.child? root Vocabulary.ruleSubtree = some steps.rules := by
    obtain ⟨m, hm, hname, hparent, _⟩ := hwrote.written h
    exact hbegun.child?_iff_parent.mpr ⟨m, hm, hparent, hname⟩
  obtain ⟨parent, hl⟩ := hd.exists_leads hbegun hrules
  have hwrites := steps.writes
  rw [hbegun.resolvePath_of_leads hwild hroot hl] at hwrites
  have hwritable : s.withoutBlankChildren.Writable steps.begun [parent] := by
    refine ⟨fun child hmem => ?_, fun p hp => ?_, fun p _ => ?_, fun _ => Nat.le_refl 1⟩
    · exact hd.admitted.isNodeName_child child (List.mem_filter.mp hmem).1
    · obtain ⟨n, hn, _⟩ := hbegun.path_of_leads hl
      exact ⟨n, List.mem_singleton.mp hp ▸ hn⟩
    · exact isNodeName_writtenNames hbegun (.inr hd.admitted.isNodeName_selectedName) p
  obtain ⟨given, ws, hgiven, hprogress, hlists⟩ :=
    writeParents_progresses hbegun hwritable (p := { store := steps.begun }) rfl
  obtain rfl : given = steps.given := Except.ok.inj (hgiven.symm.trans hwrites)
  have hw := hprogress.writes
  have hcoherent := hw.coherent hbegun
  have hchild : ∀ w ∈ ws, steps.given.store.child? w.parent w.name = some w.id := fun w hmem =>
    hw.child?_of_mem hmem
  rw [hd.places_eq] at hlists
  have hdepth : ∀ place ∈ [(parent, s.selectedName)], ∃ names,
      steps.given.store.Leads names place.1 ∧ names.length = (behindRoot s.parents).length := by
    intro place hplace
    rw [List.mem_singleton.mp hplace]
    exact ⟨_, hw.leads_kept hbegun hl, rfl⟩
  have hids : (ws.map (·.id)).Nodup := hlists.nodup_ids hcoherent hchild (List.nodup_singleton _)
    (hchildren.sublist (List.filter_sublist.map _)) hdepth
  have hplace := List.mem_singleton_self (parent, s.selectedName)
  have hsettled := hlists.settledAt hbegun hw hids hplace
  refine ⟨parent, steps.completes.writes.leads_kept hcoherent (hw.leads_kept hbegun hl), ?_⟩
  have hnode : nodeAt steps.completed (parent, s.selectedName) =
      nodeAt steps.given.store (parent, s.selectedName) := by
    have hfound := hlists.child?_of_mem hchild hplace
    rw [nodeAt, steps.completes.writes.child?_kept hcoherent hfound]
    rfl
  intro request hrequest
  rw [requestsAt, hnode] at hrequest
  exact steps.completes.settled (hsettled request hrequest)

/-- A definition that is not refused is not refused afterwards, either, and then changes nothing. -/
theorem Admitted.enforce_again (ha : s.Admitted) (hverb : s.verb = .enforce)
    (hchildren : s.childNames.Nodup) (h : store.Coherent) {response : Response}
    (hok : s.enforce store = .ok (t, response)) (hnone : enforceViolations store s = []) :
    ∃ again, s.enforce t = .ok (t, again) ∧ again.isError = false ∧ again.changed = false := by
  obtain ⟨t', _, ruleset, ws, hok', htarget, he, _⟩ := ha.enforce_of_checked hverb h hnone
  obtain ⟨rfl, _⟩ := Prod.mk.inj (Except.ok.inj (hok.symm.trans hok'))
  have ht := he.writes.coherent h
  obtain ⟨steps⟩ := ha.nonempty_steps hverb h hnone
  obtain rfl : steps.completed = t := by
    rw [enforce_of_steps steps.target hnone steps.ensured steps.writes steps.ends] at hok
    exact (Prod.mk.inj (Except.ok.inj hok)).1
  obtain ⟨parent, hl, hsettled⟩ := steps.settledAt h hchildren
  have hd := steps.definable
  obtain ⟨hwild, hroot, _⟩ := hd.path_names
  have hplaces : ∀ place ∈ s.withoutBlankChildren.places steps.completed [parent],
      s.withoutBlankChildren.SettledAt steps.completed place := by
    rw [hd.places_eq]
    exact fun place hplace => List.mem_singleton.mp hplace ▸ hsettled
  obtain ⟨q, hq, hidle⟩ :=
    writeParents_of_settled (p := { store := steps.completed }) ht hplaces rfl
  have hstore : q.store = steps.completed := hidle.store
  obtain ⟨id, hid, hcomplete⟩ := ruleset?_of_enforced h he
  obtain ⟨rules, hrules, _⟩ := Option.bind_eq_some_iff.mp hid
  have hensured : steps.completed.ensureRuleSubtree = .ok (steps.completed, rules) := by
    rw [ensureRuleSubtree, ht.insertOrGetChild_of_child? hrules]
    rfl
  have hends : q.store.ensureDefaultRuleset ruleset = .ok (steps.completed, 0) := by
    rw [hstore, ensureDefaultRuleset, ht.lookup_ruleset he.name, hid]
    exact ht.addDefaults_of_complete fun kind _ => hcomplete kind
  rw [← ht.resolvePath_of_leads hwild hroot hl] at hq
  refine ⟨_, enforce_of_steps htarget
    (enforceViolations_of_checked htarget (checked_of_enforced h he)) hensured hq hends, rfl, ?_⟩
  rw [enforcedResponse, hidle.changed]
  rfl

end Statement

end TreeDatabase
