import TreeDatabase.Proofs.Engine
import TreeDatabase.Proofs.Ruleset.Conformance

/-!
# Rules over runs

Every node outside the rule subtree conforms to the ruleset of its name, and goes on to do so
whatever statements are executed, as long as none of them is a renaming.
-/

namespace TreeDatabase

open Ruleset Store

namespace Store

variable {s t : Store}

theorem Coherent.name_cases (h : Coherent s) {id : NodeId} {n : Node} (hn : s.get? id = some n) :
    n.name = "" ∨ isNodeName n.name = true := by
  by_cases hid : id = root
  · obtain ⟨r, hr, hname, _⟩ := h.tree.root
    rw [hid, hr] at hn
    cases hn
    exact .inl hname
  · exact .inr (h.tree.name hn hid)

/-- What statements other than renamings keep of the rules. -/
structure KeepsRules (s : Store) : Prop where
  shape : s.RuleShape
  types : ∀ name, isNodeName name = true →
    ∃ type, ValueType.ofName? (ruleFor s name .type) = some type
  conforms : ∀ id n, s.get? id = some n → ¬ s.UnderRules id → Conforms s id n

theorem ruleFor_congr (hs : Coherent s) (ht : Coherent t) {name : String}
    (hname : isNodeName name = true)
    (h : ∀ kind, persisted? t name kind = persisted? s name kind) (kind : RuleKind) :
    ruleFor t name kind = ruleFor s name kind := by
  rw [ruleFor_eq hs hname, ruleFor_eq ht hname, h]

theorem ruleFor_of_unset (h : Coherent s) {name : String} (hname : isNodeName name = true)
    (hnone : ∀ kind, persisted? s name kind = none) (kind : RuleKind) :
    ruleFor s name kind = kind.default := by
  rw [ruleFor_eq h hname, hnone]
  rfl

theorem conforms_default {id : NodeId} {n : Node}
    (h : ∀ kind, ruleFor s n.name kind = kind.default) : Conforms s id n := by
  refine ⟨admits_default h _, fun hunique => ?_⟩
  rw [h] at hunique
  exact absurd hunique (by decide)

/-- A node that conforms goes on to do so under the same rules, while no node of its name is new or
has another value. -/
theorem conforms_congr {id : NodeId} {n m : Node} (hold : Conforms s id n) (hname : m.name = n.name)
    (hvalue : m.value = n.value) (hrules : ∀ kind, ruleFor t m.name kind = ruleFor s m.name kind)
    (hback : ∀ j k, t.get? j = some k → ¬ t.UnderRules j → ∃ l, s.get? j = some l ∧
      ¬ s.UnderRules j ∧ k.name = l.name ∧ k.value = l.value) : Conforms t id m where
  admits := by
    rw [funext hrules, hname, hvalue]
    exact hold.admits
  unique := by
    intro hunique hne j k hj hout hjname hjvalue
    obtain ⟨l, hl, hlout, hlname, hlvalue⟩ := hback j k hj hout
    rw [hrules, hname] at hunique
    exact hold.unique hunique (hvalue ▸ hne) j l hl hlout
      (hlname.symm.trans (hjname.trans hname)) (hlvalue.symm.trans (hjvalue.trans hvalue))

theorem ruleFor_empty (name : String) (kind : RuleKind) : ruleFor empty name kind = kind.default :=
  rfl

theorem keepsRules_empty : empty.KeepsRules := by
  refine ⟨ruleShape_empty, fun name _ => ⟨.text, by rw [ruleFor_empty]; decide⟩, ?_⟩
  exact fun id n _ _ => conforms_default (ruleFor_empty n.name)

/-! ## Deletions -/

/-- What conforms goes on to do so when nodes are taken away, and rules only with all others of
their ruleset. -/
theorem KeepsRules.of_prunes (hk : s.KeepsRules) (h : Coherent s) (ht : Coherent t)
    (hp : s.Prunes t) (hrules : ∀ name, isNodeName name = true → KeepsOrLoses s t name) :
    t.KeepsRules where
  shape := hp.ruleShape h ht hk.shape
  types := by
    intro name hname
    rcases hrules name hname with hkeep | hlose
    · rw [ruleFor_congr h ht hname hkeep]
      exact hk.types name hname
    · exact ⟨.text, by rw [ruleFor_of_unset ht hname hlose]; decide⟩
  conforms := by
    have hback : ∀ j k, t.get? j = some k → ¬ t.UnderRules j → ∃ l, s.get? j = some l ∧
        ¬ s.UnderRules j ∧ k.name = l.name ∧ k.value = l.value := by
      intro j k hj hout
      obtain ⟨l, hl, hname, hpath, hvalue, _⟩ := hp j k hj
      exact ⟨l, hl, mt (h.underRules_congr ht hl hj hpath).mpr hout, hname, hvalue⟩
    intro id m hm hout
    obtain ⟨n, hn, hnout, hname, hvalue⟩ := hback id m hm hout
    rcases ht.name_cases hm with hblank | hvalid
    · exact conforms_default fun kind => hblank ▸ ruleFor_blank ht kind
    · rcases hrules m.name hvalid with hkeep | hlose
      · exact conforms_congr (hk.conforms id n hn hnout) hname hvalue
          (ruleFor_congr h ht hvalid hkeep) hback
      · exact conforms_default (ruleFor_of_unset ht hvalid hlose)

/-! ## Definitions of rules -/

theorem leads_of_inRuleset (h : Coherent t) {ruleset : String} {w : NodeWrite}
    (hw : Statement.InRuleset t ruleset w) : ∃ names, t.Leads names w.parent ∧
      (names = [] ∧ w.name = Vocabulary.ruleSubtree ∨
        names = [Vocabulary.ruleSubtree] ∧ w.name = ruleset ∨
        names = [Vocabulary.ruleSubtree, ruleset] ∧ Vocabulary.isRuleName w.name = true) := by
  cases hw with
  | rules parent name => exact ⟨[], parent ▸ .root, .inl ⟨rfl, name⟩⟩
  | ruleset parent name =>
    exact ⟨_, h.leads_singleton_iff.mpr parent, .inr (.inl ⟨rfl, name⟩)⟩
  | rule parent name =>
    exact ⟨_, h.leads_ruleset_iff.mpr parent, .inr (.inr ⟨rfl, name⟩)⟩

theorem underRules_of_inRuleset (h : Coherent t) {ruleset : String} {w : NodeWrite}
    (hw : Statement.InRuleset t ruleset w) (hc : t.child? w.parent w.name = some w.id) :
    t.UnderRules w.id := by
  obtain ⟨names, hl, hcases⟩ := leads_of_inRuleset h hw
  have hl' := h.leads_child_iff.mpr ⟨w.parent, hl, hc⟩
  rw [h.underRules_iff_leads]
  rcases hcases with ⟨rfl, hname⟩ | ⟨rfl, _⟩ | ⟨rfl, _⟩
  · exact ⟨[], hname ▸ hl'⟩
  · exact ⟨_, hl'⟩
  · exact ⟨_, hl'⟩

/-- What a definition writes stands at one of the three places of the definition. -/
theorem leads_of_enforced (h : Coherent s) {statement : Statement} {ruleset : String}
    {ws : List NodeWrite} (he : statement.Enforced ruleset s t ws) {w : NodeWrite} (hmem : w ∈ ws)
    {names : List String} (hl : t.Leads names w.id) :
    names = [Vocabulary.ruleSubtree] ∧ w.name = Vocabulary.ruleSubtree ∨
      names = [Vocabulary.ruleSubtree, ruleset] ∧ w.name = ruleset ∨
        names = [Vocabulary.ruleSubtree, ruleset, w.name] ∧
          Vocabulary.isRuleName w.name = true := by
  have ht := he.writes.coherent h
  obtain ⟨above, habove, hcases⟩ := leads_of_inRuleset ht (he.places w hmem)
  have hbelow := ht.leads_child_iff.mpr ⟨w.parent, habove, he.writes.child?_of_mem hmem⟩
  obtain rfl := ht.leads_unique hl hbelow
  rcases hcases with ⟨rfl, hname⟩ | ⟨rfl, hname⟩ | ⟨rfl, hrule⟩
  · exact .inl ⟨congrArg ([·]) hname, hname⟩
  · exact .inr (.inl ⟨by rw [hname]; rfl, hname⟩)
  · exact .inr (.inr ⟨rfl, hrule⟩)

theorem ruleShape_of_enforced (hshape : s.RuleShape) (h : Coherent s) {statement : Statement}
    {ruleset : String} {ws : List NodeWrite} (he : statement.Enforced ruleset s t ws) :
    t.RuleShape := by
  have ht := he.writes.coherent h
  apply he.writes.ruleShape h hshape
  · intro w hw hname
    obtain ⟨names, hl, hcases⟩ := leads_of_inRuleset ht (he.places w hw)
    rcases hcases with ⟨rfl, _⟩ | ⟨_, hset⟩ | ⟨_, hrule⟩
    · exact hl.eq_root
    · have hbad := he.bad
      rw [← hset, hname] at hbad
      exact absurd hbad (by decide)
    · rw [hname] at hrule
      exact absurd hrule (by decide)
  · intro w hw names hl
    obtain ⟨others, hl', hcases⟩ := leads_of_inRuleset ht (he.places w hw)
    obtain rfl := ht.leads_unique hl hl'
    rcases hcases with ⟨heq, _⟩ | ⟨heq, _⟩ | ⟨heq, _⟩
    · cases heq
    · simp only [List.cons.injEq, true_and] at heq
      simp [heq]
    · simp only [List.cons.injEq, true_and] at heq
      simp [heq]

theorem ruleFor_of_enforced (h : Coherent s) {statement : Statement} {ruleset name : String}
    {ws : List NodeWrite} (he : statement.Enforced ruleset s t ws) (hname : isNodeName name = true)
    (hne : name ≠ ruleset) (kind : RuleKind) : ruleFor t name kind = ruleFor s name kind := by
  have ht := he.writes.coherent h
  refine ruleFor_congr h ht hname
    (persisted?_unchanged h he.writes hname fun id hid w hw hparent => ?_) kind
  obtain ⟨names, hl, hcases⟩ := leads_of_inRuleset ht (he.places w hw)
  have heq := ht.leads_unique (hparent ▸ hl) (ht.leads_ruleset_iff.mpr hid)
  rcases hcases with ⟨rfl, _⟩ | ⟨rfl, _⟩ | ⟨rfl, _⟩
  · cases heq
  · cases heq
  · simp only [List.cons.injEq, true_and, and_true] at heq
    exact hne heq.symm

/-- Outside the rule subtree a definition leaves only nodes that were there, with their values. -/
theorem outside_of_enforced (h : Coherent s) {statement : Statement} {ruleset : String}
    {ws : List NodeWrite} (he : statement.Enforced ruleset s t ws) {id : NodeId} {m : Node}
    (hm : t.get? id = some m) (hout : ¬ t.UnderRules id) :
    ∃ n, s.get? id = some n ∧ ¬ s.UnderRules id ∧ m.name = n.name ∧ m.value = n.value := by
  have ht := he.writes.coherent h
  rcases he.writes.value h hm with ⟨_, n, hn, hname, hpath, hvalue⟩ | ⟨w, hw, rfl, _⟩
  · exact ⟨n, hn, mt (h.underRules_congr ht hn hm hpath).mpr hout, hname, hvalue⟩
  · exact absurd (underRules_of_inRuleset ht (he.places w hw) (he.writes.child?_of_mem hw)) hout

theorem KeepsRules.of_enforced (hk : s.KeepsRules) (h : Coherent s) {statement : Statement}
    {ruleset : String} {ws : List NodeWrite} (he : statement.Enforced ruleset s t ws) :
    t.KeepsRules := by
  have ht := he.writes.coherent h
  have htype := type_of_enforced he h (hk.types ruleset he.name)
  have hrule := ruleFor_enforced he h
  have hback : ∀ j k, t.get? j = some k → ¬ t.UnderRules j → ∃ l, s.get? j = some l ∧
      ¬ s.UnderRules j ∧ k.name = l.name ∧ k.value = l.value := fun _ _ =>
    outside_of_enforced h he
  refine ⟨ruleShape_of_enforced hk.shape h he, ?_, ?_⟩
  · intro name hname
    by_cases heq : name = ruleset
    · obtain ⟨type, htype, _⟩ := htype
      exact ⟨type, by rw [heq, hrule, htype]⟩
    · rw [ruleFor_of_enforced h he hname heq]
      exact hk.types name hname
  · intro id m hm hout
    obtain ⟨n, hn, hnout, hname, hvalue⟩ := hback id m hm hout
    rcases ht.name_cases hm with hblank | hvalid
    · exact conforms_default fun kind => hblank ▸ ruleFor_blank ht kind
    · by_cases heq : m.name = ruleset
      · have hreached : ∀ j l, s.get? j = some l → l.name = ruleset → s.Reached j l := by
          intro j l hl hlname
          refine h.reached_iff.mpr ⟨?_, hl⟩
          rintro rfl
          obtain ⟨r, hr, hblank, _⟩ := h.tree.root
          rw [hl] at hr
          cases hr
          exact ne_blank_of_isNodeName he.name (hlname.symm.trans hblank)
        have hnname : n.name = ruleset := hname.symm.trans heq
        obtain ⟨hadmits, hunique⟩ := admits_of_enforced he h (hk.types ruleset he.name)
          (hreached id n hn hnname) hnname hnout
        refine ⟨by rw [heq, hvalue]; exact hadmits, ?_⟩
        intro hraised hne j k hj hjout hjname hjvalue
        obtain ⟨l, hl, hlout, hlname, hlvalue⟩ := hback j k hj hjout
        rw [heq] at hraised
        have hlset : l.name = ruleset := hlname.symm.trans (hjname.trans heq)
        exact h.isUnique_iff.mp (hunique hraised (hvalue ▸ hne)) j id l n (hreached j l hl hlset)
          (hreached id n hn hnname) hlset hnname (hlvalue.symm.trans (hjvalue.trans hvalue)) rfl
          hlout hnout
      · exact conforms_congr (hk.conforms id n hn hnout) hname hvalue
          (ruleFor_of_enforced h he hvalid heq) hback

/-! ## Writes -/

section

variable {ws : List NodeWrite}

theorem eq_of_countP_le_one {α : Type} {p : α → Bool} {l : List α} (h : l.countP p ≤ 1) {a b : α}
    (ha : a ∈ l) (hb : b ∈ l) (hpa : p a = true) (hpb : p b = true) : a = b := by
  rw [List.countP_eq_length_filter] at h
  have ha' := List.mem_filter.mpr ⟨ha, hpa⟩
  have hb' := List.mem_filter.mpr ⟨hb, hpb⟩
  match hl : l.filter p, h with
  | [], _ =>
    rw [hl] at ha'
    cases ha'
  | [c], _ =>
    rw [hl, List.mem_singleton] at ha' hb'
    rw [ha', hb']

/-- A write that collides with none gives its node the value that it has, or a value that only this
one write gives and that only nodes have that are written too. -/
theorem Writes.cases_of_collides (hw : s.Writes ws t) (h : Coherent s) {w : NodeWrite}
    (hmem : w ∈ ws) (hc : collides s (ws.map s.pending) (s.pending w) = false) :
    (∃ n, s.get? w.id = some n ∧ n.value = (s.pending w).value) ∨
    (∀ id ∈ s.nodesWithValue w.name (s.pending w).value, ∃ w' ∈ ws, w'.id = id) ∧
      ∀ w' ∈ ws, w'.name = w.name → (s.pending w').value = (s.pending w).value → w' = w := by
  have hexisting : ∀ w' ∈ ws, (s.pending w').existing =
      if (s.get? w'.id).isSome then some w'.id else none := fun w' hw' => hw.child?_eq h hw'
  rw [collides] at hc
  simp only [Bool.and_eq_false_iff, Bool.not_eq_false', Bool.or_eq_false_iff] at hc
  rcases hc with hunchanged | ⟨helsewhere, hcount⟩
  · left
    rw [hexisting w hmem] at hunchanged
    cases hn : s.get? w.id with
    | none => simp [hn] at hunchanged
    | some n =>
      refine ⟨n, rfl, ?_⟩
      simpa [hn] using hunchanged
  · right
    constructor
    · intro id hid
      rw [List.any_eq_false] at helsewhere
      have hany := helsewhere id hid
      simp only [Bool.not_eq_true', Bool.not_eq_false, List.any_eq_true, List.mem_filter,
        List.mem_map] at hany
      obtain ⟨_, ⟨⟨w', hw', rfl⟩, _⟩, hid'⟩ := hany
      rw [beq_iff_eq, hexisting w' hw'] at hid'
      split at hid'
      · exact ⟨w', hw', Option.some_inj.mp hid'⟩
      · cases hid'
    · intro w' hw' hname hvalue
      rw [List.countP_filter, List.countP_map] at hcount
      refine eq_of_countP_le_one (by simpa using hcount) hw' hmem ?_ ?_
      · simp only [Function.comp, Bool.and_eq_true, beq_iff_eq]
        exact ⟨hvalue, hname⟩
      · simp [Function.comp]

/-- A node outside the rule subtree with a name and a value. -/
def Holds (s : Store) (name value : String) (id : NodeId) : Prop :=
  ∃ n, s.get? id = some n ∧ ¬ s.UnderRules id ∧ n.name = name ∧ n.value = value

theorem Coherent.mem_nodesWithValue_of_holds (h : Coherent s) {name value : String} {id : NodeId}
    (hname : isNodeName name = true) (hid : s.Holds name value id) :
    id ∈ s.nodesWithValue name value := by
  obtain ⟨n, hn, hout, hnn, hvalue⟩ := hid
  refine h.mem_nodesWithValue_iff.mpr ⟨n, h.reached_iff.mpr ⟨?_, hn⟩, hnn, hvalue, hout⟩
  rintro rfl
  obtain ⟨r, hr, hblank, _⟩ := h.tree.root
  rw [hn] at hr
  cases hr
  exact ne_blank_of_isNodeName hname (hnn.symm.trans hblank)

/-- Writes that collide with none leave a value at one node at most that was at one at most. -/
theorem Writes.unique (hw : s.Writes ws t) (h : Coherent s) {name value : String}
    (hname : isNodeName name = true)
    (hbefore : ∀ i j, s.Holds name value i → s.Holds name value j → i = j)
    (hcollides : ∀ w ∈ ws, w.name = name → (s.pending w).value = value →
      collides s (ws.map s.pending) (s.pending w) = false) {i j : NodeId}
    (hi : t.Holds name value i) (hj : t.Holds name value j) : i = j := by
  have ht := hw.coherent h
  -- a node that holds the value did so before and is not written, or a write gives it the value
  have horigin : ∀ {k}, t.Holds name value k → (k ∉ ws.map (·.id) ∧ s.Holds name value k) ∨
      ∃ w ∈ ws, w.id = k ∧ w.name = name ∧ (s.pending w).value = value := by
    rintro k ⟨m, hm, hout, rfl, rfl⟩
    rcases hw.value h hm with ⟨hnot, n, hn, hnn, hpath, hvalue⟩ | hwritten
    · exact .inl ⟨hnot, n, hn, mt (h.underRules_congr ht hn hm hpath).mpr hout, hnn.symm,
        hvalue.symm⟩
    · exact .inr hwritten
  have hcases : ∀ {k}, t.Holds name value k → s.Holds name value k ∨
      ∀ {l}, t.Holds name value l → l = k := by
    intro k hk
    rcases horigin hk with ⟨_, hold⟩ | ⟨w, hmem, rfl, rfl, rfl⟩
    · exact .inl hold
    · rcases hw.cases_of_collides h hmem (hcollides w hmem rfl rfl) with
        ⟨n, hn, hvalue⟩ | ⟨helsewhere, hsole⟩
      · obtain ⟨m, hm, hout, hmn, _⟩ := hk
        obtain ⟨m', hm', hnn, hpath, _⟩ := hw.kept hn
        rw [hm] at hm'
        cases hm'
        exact .inl ⟨n, hn, mt (h.underRules_congr ht hn hm hpath).mpr hout, hnn.symm.trans hmn,
          hvalue⟩
      · right
        intro l hl
        rcases horigin hl with ⟨hnot, hold⟩ | ⟨w', hmem', rfl, hnn, hvalue⟩
        · obtain ⟨w', hmem', rfl⟩ :=
            helsewhere l (h.mem_nodesWithValue_of_holds hname hold)
          exact absurd (List.mem_map_of_mem hmem') hnot
        · rw [hsole w' hmem' hnn hvalue]
  rcases hcases hi with hi' | hall
  · rcases hcases hj with hj' | hall
    · exact hbefore i j hi' hj'
    · exact hall hi
  · exact (hall hj).symm

/-- Writes outside the rule subtree leave the rules as they are. -/
theorem Writes.ruleFor_of_outside (hw : s.Writes ws t) (h : Coherent s)
    (houtside : ∀ w ∈ ws, ¬ t.UnderRules w.parent) {name : String}
    (hname : isNodeName name = true) (kind : RuleKind) :
    ruleFor t name kind = ruleFor s name kind :=
  ruleFor_congr h (hw.coherent h) hname (persisted?_of_outside h hw houtside hname) kind

/-- Writes outside the rule subtree that break no rule leave all nodes conforming. -/
theorem KeepsRules.of_writes (hk : s.KeepsRules) (h : Coherent s) (hw : s.Writes ws t)
    (houtside : ∀ w ∈ ws, w.name ≠ Vocabulary.ruleSubtree ∧ ¬ t.UnderRules w.parent ∧
      ¬ t.UnderRules w.id)
    (hchecked : writeViolations s (ws.map s.pending) = []) : t.KeepsRules := by
  have ht := hw.coherent h
  have hrules : ∀ name, isNodeName name = true → ∀ kind,
      ruleFor t name kind = ruleFor s name kind := fun name hname kind =>
    hw.ruleFor_of_outside h (fun w hmem => (houtside w hmem).2.1) hname kind
  have hcheck : ∀ w ∈ ws, isNodeName w.name = true → ∃ type,
      ValueType.ofName? (ruleFor s w.name .type) = some type ∧
      ((∀ kind, ruleFor s w.name kind = kind.default) ∨
        ∀ kind, valueViolation? s .write (ws.map s.pending) type kind (ruleFor s w.name kind)
          (s.pending w) = none) := by
    intro w hmem hname
    obtain ⟨type, htype⟩ := hk.types w.name hname
    have hnone := pendingViolations_eq_nil hchecked _ (List.mem_map_of_mem hmem)
    have hpending := name_pending s w
    generalize s.pending w = node at hnone hpending ⊢
    rw [← hpending] at htype hname ⊢
    exact ⟨type, htype, check_of_pendingViolations h hname hnone htype⟩
  refine ⟨?_, fun name hname => ?_, fun id m hm hout => ?_⟩
  · exact hw.ruleShape_of_outside h hk.shape fun w hmem =>
      ⟨(houtside w hmem).1, (houtside w hmem).2.1⟩
  · rw [hrules name hname]
    exact hk.types name hname
  · rcases ht.name_cases hm with hblank | hvalid
    · exact conforms_default fun kind => hblank ▸ ruleFor_blank ht kind
    · have hsame := hrules m.name hvalid
      refine ⟨?_, fun hunique hne j k hj hjout hjname hjvalue => ?_⟩
      · rw [funext hsame]
        rcases hw.value h hm with ⟨_, n, hn, hname, hpath, hvalue⟩ | ⟨w, hmem, _, hname, hvalue⟩
        · have hnout := mt (h.underRules_congr ht hn hm hpath).mpr hout
          rw [hname, hvalue]
          exact (hk.conforms id n hn hnout).admits
        · obtain ⟨type, htype, hdefault | hnone⟩ := hcheck w hmem (hname ▸ hvalid)
          · exact admits_default (fun kind => hname ▸ hdefault kind) _
          · rw [← hname, ← hvalue]
            exact admits_of_check hnone htype rfl rfl (fun hr => hr) (fun hr => hr)
      · rw [hsame] at hunique
        have hid : t.Holds m.name m.value id := ⟨m, hm, hout, rfl, rfl⟩
        have hjd : t.Holds m.name m.value j := ⟨k, hj, hjout, hjname, hjvalue⟩
        refine hw.unique h hvalid ?_ ?_ hjd hid
        · rintro i l ⟨n, hn, hnout, hnn, hnv⟩ ⟨n', hn', hnout', hnn', hnv'⟩
          exact (hk.conforms l n' hn' hnout').unique (hnn' ▸ hunique) (hnv' ▸ hne) i n hn hnout
            (hnn.trans hnn'.symm) (hnv.trans hnv'.symm)
        · intro w hmem hname hvalue
          obtain ⟨type, htype, hdefault | hnone⟩ := hcheck w hmem (hname ▸ hvalid)
          · rw [← hname, hdefault] at hunique
            exact absurd hunique (by decide)
          · rw [← hname, ← name_pending s w] at hunique
            exact collides_of_check (hnone .unique) hunique (hvalue ▸ hne)

end

end Store

/-! ## Runs -/

theorem Store.KeepsRules.of_executes {s t : Store} (hk : s.KeepsRules) (h : s.Coherent)
    (ht : t.Coherent) {statement : Statement} (hexecutes : statement.Executes s t)
    (hverb : statement.verb ≠ .rename) : t.KeepsRules := by
  cases hexecutes with
  | unchanged => exact hk
  | written admitted verb writes requested checked =>
    exact hk.of_writes h writes (admitted.writes_outside verb h hk.shape writes requested) checked
  | deleted admitted verb prunes =>
    exact hk.of_prunes h ht prunes fun name hname =>
      admitted.delete_keepsOrLoses verb h hk.shape hname
  | renamed _ verb _ => exact absurd verb hverb
  | enforced _ _ enforced => exact hk.of_enforced h enforced

/-- The store after the statements of some texts have been executed on the empty one. -/
def Engine.storeAfter (format : DataFormat) (texts : List String) : Store :=
  (Engine.runTexts .literal { resolverState := (), format } texts).store

/-- What all executions but those of renamings keep holds after any statements none of which is a
renaming. -/
theorem Engine.storeAfter_keeps {Inv : Store → Prop}
    (hstep : ∀ (s : Statement) (store t : Store), store.Coherent → t.Coherent → Inv store →
      s.Executes store t → s.verb ≠ .rename → Inv t)
    (hempty : Inv empty) (format : DataFormat) (texts : List String)
    (hverbs : ∀ text ∈ texts, (Statement.parse text).verb ≠ .rename) :
    (Engine.storeAfter format texts).Coherent ∧ Inv (Engine.storeAfter format texts) := by
  refine Engine.runTexts_literal (fun text hmem e store t h ht hinv hexecutes => ?_) _
    coherent_empty hempty
  refine hstep _ store t h ht hinv hexecutes ?_
  rw [e.verb_parse]
  exact hverbs text hmem

/-- After any statements none of which is a renaming, rules are kept. -/
theorem Engine.keepsRules_storeAfter (format : DataFormat) (texts : List String)
    (hverb : ∀ text ∈ texts, (Statement.parse text).verb ≠ .rename) :
    (storeAfter format texts).Coherent ∧ (storeAfter format texts).KeepsRules :=
  storeAfter_keeps (fun _ _ _ h ht hk hexecutes hverb => hk.of_executes h ht hexecutes hverb)
    keepsRules_empty format texts hverb

/-- After any statements none of which is a renaming, every node outside the rule subtree conforms
to the ruleset of its name. -/
theorem conforms_storeAfter (format : DataFormat) (texts : List String)
    (hverb : ∀ text ∈ texts, (Statement.parse text).verb ≠ .rename) :
    ∀ id n, (Engine.storeAfter format texts).get? id = some n →
      ¬ (Engine.storeAfter format texts).UnderRules id →
      Conforms (Engine.storeAfter format texts) id n :=
  (Engine.keepsRules_storeAfter format texts hverb).2.conforms

theorem conforms_storeAfter_bounded :
    let store := Engine.storeAfter .basic
      ["write rule.age: type=integer, max=120, unique=true", "write age=30 Times 2"]
    ∀ id n, store.get? id = some n → ¬ store.UnderRules id → Conforms store id n := by
  refine conforms_storeAfter .basic _ ?_
  intro text htext
  rcases List.mem_cons.mp htext with rfl | htext
  · decide +kernel
  · rw [List.mem_singleton.mp htext]
    decide +kernel

end TreeDatabase
