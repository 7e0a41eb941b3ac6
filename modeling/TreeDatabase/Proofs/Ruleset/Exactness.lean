import TreeDatabase.Proofs.Engine.Writing

/-!
# What the check of a write finds

A write is checked by its plan, before any node is written. The check finds nothing wrong just when
all nodes would conform to their rulesets once they are written, and a value that it finds twice
would be there twice.
-/

namespace TreeDatabase

open Ruleset Store

namespace Ruleset

variable {store : Store} {batch : List PendingWrite} {node : PendingWrite}

/-- The check of a write finds nothing wrong with a value that the rules admit, unless it collides
where they ask for unique values. -/
theorem check_of_admits {t : ValueType} {rule : RuleKind → String} (h : Admits rule node.value)
    (htype : ValueType.ofName? (rule .type) = some t)
    (hunique : rule .unique = "true" → node.value ≠ "" → collides store batch node = false)
    (kind : RuleKind) : valueViolation? store .write batch t kind (rule kind) node = none := by
  obtain ⟨t', htype', haccepts, hbounds⟩ := h.typed
  rw [htype] at htype'
  cases htype'
  cases kind with
  | type => simp [valueViolation?, haccepts]
  | max =>
    by_cases hvalue : node.value = ""
    · simp [valueViolation?, hvalue]
    · simp [valueViolation?, (hbounds hvalue).1]
  | min =>
    by_cases hvalue : node.value = ""
    · simp [valueViolation?, hvalue]
    · simp [valueViolation?, (hbounds hvalue).2]
  | required =>
    have hvalue : rule .required = "true" → node.value ≠ "" := fun hr => h.required (.inl hr)
    simpa [valueViolation?] using hvalue
  | key =>
    have hvalue : rule .key = "true" → node.value ≠ "" := fun hk => h.required (.inr hk)
    simpa [valueViolation?] using hvalue
  | unique =>
    rw [valueViolation?]
    split
    · next hraised => simp [hunique hraised.1 hraised.2]
    · rfl

theorem pendingViolations_of_admits (hstore : store.Coherent) (hname : isNodeName node.name = true)
    {t : ValueType} (h : Admits (ruleFor store node.name) node.value)
    (htype : ValueType.ofName? (ruleFor store node.name .type) = some t)
    (hunique : ruleFor store node.name .unique = "true" → node.value ≠ "" →
      collides store batch node = false) : pendingViolations store batch node = [] := by
  rw [pendingViolations_eq hstore hname htype]
  split
  · rfl
  · exact List.filterMap_eq_nil_iff.mpr fun kind _ => check_of_admits h htype hunique kind

/-- Only a value that is not blank is found twice, and only by a collision. -/
theorem collides_of_duplicate {name : String} (h : .duplicate name ∈ writeViolations store batch) :
    ∃ node ∈ batch, node.name = name ∧ node.value ≠ "" ∧ collides store batch node = true := by
  rw [writeViolations, List.mem_eraseDups, List.mem_flatMap] at h
  obtain ⟨node, hmem, hpending⟩ := h
  rw [pendingViolations] at hpending
  dsimp only at hpending
  split at hpending
  · cases hpending
  · obtain ⟨kind, _, hkind⟩ := List.mem_filterMap.mp hpending
    cases kind with
    | unique =>
      rw [valueViolation?] at hkind
      split at hkind
      · next hraised =>
        rw [if_neg (by decide)] at hkind
        dsimp only at hkind
        split at hkind
        · next hc => exact ⟨node, hmem, by simpa using hkind, hraised.2, hc⟩
        · cases hkind
      · cases hkind
    | _ => simp [valueViolation?] at hkind

end Ruleset

namespace Store

variable {s t : Store} {ws : List NodeWrite} {name value : String}

/-- A node that is written once has the value in the end that was foreseen. -/
theorem Writes.holds_of_mem (hw : s.Writes ws t) (h : Coherent s) (hids : (ws.map (·.id)).Nodup)
    {w : NodeWrite} (hmem : w ∈ ws) (hout : ¬ t.UnderRules w.id) :
    t.Holds w.name (s.pending w).value w.id := by
  have hchild := hw.child?_of_mem hmem
  obtain ⟨m, hm, _, hname⟩ := (hw.coherent h).child?_iff_parent.mp hchild
  have hvalue := hw.valueOf?_of_nodup h hids hmem
  rw [valueOf?_of_child? hchild hm] at hvalue
  exact ⟨m, hm, hout, hname, Option.some.inj hvalue⟩

/-- A node that is not written goes on to hold its value. -/
theorem Writes.holds_of_not_mem (hw : s.Writes ws t) (h : Coherent s) {id : NodeId}
    (hnot : ∀ w ∈ ws, id ≠ w.id) (hold : s.Holds name value id) : t.Holds name value id := by
  obtain ⟨n, hn, hout, hname, hvalue⟩ := hold
  obtain ⟨m, hm, _, hpath, _⟩ := hw.kept hn
  obtain ⟨hsame, _⟩ := hw.grown hn hm hnot
  refine ⟨m, hm, mt (h.underRules_congr (hw.coherent h) hn hm hpath).mp hout, ?_, ?_⟩
  · rw [hsame, hname]
  · rw [hsame, hvalue]

theorem exists_ne_of_one_lt_countP {α : Type} {p : α → Bool} {l : List α} (hl : l.Nodup)
    (h : 1 < l.countP p) (a : α) : ∃ b ∈ l, p b = true ∧ b ≠ a := by
  rw [List.countP_eq_length_filter] at h
  have hfound : l.filter p ≠ [a] := fun heq => by simp [heq] at h
  rcases ((hl.filter p).ne_singleton_iff a).mp hfound with hempty | ⟨b, hb, hba⟩
  · simp [hempty] at h
  · obtain ⟨hmem, hp⟩ := List.mem_filter.mp hb
    exact ⟨b, hmem, hp, hba⟩

/-- When a write collides, another node has its value too in the end. -/
theorem Writes.holds_of_collides (hw : s.Writes ws t) (h : Coherent s)
    (hids : (ws.map (·.id)).Nodup) (hout : ∀ w ∈ ws, ¬ t.UnderRules w.id) {w : NodeWrite}
    (hmem : w ∈ ws) (hc : collides s (ws.map s.pending) (s.pending w) = true) :
    ∃ id, id ≠ w.id ∧ t.Holds w.name (s.pending w).value id := by
  rw [collides] at hc
  simp only [Bool.and_eq_true, Bool.or_eq_true, decide_eq_true_eq] at hc
  obtain ⟨_, helsewhere | hcount⟩ := hc
  · obtain ⟨id, hid, hother⟩ := List.any_eq_true.mp helsewhere
    obtain ⟨n, hreached, hname, hvalue, hnout⟩ := h.mem_nodesWithValue_iff.mp hid
    have hnot : ∀ w' ∈ ws, id ≠ w'.id := by
      rintro w' hmem' rfl
      have hexisting := hw.child?_eq h hmem'
      rw [hreached.live, Option.isSome_some, if_pos rfl] at hexisting
      obtain ⟨n', hn', _, hname'⟩ := h.child?_iff_parent.mp hexisting
      rw [hreached.live] at hn'
      cases hn'
      -- a write of that node would be one of its name in the batch
      have hsame : s.pending w' ∈ (ws.map s.pending).filter (·.name == (s.pending w).name) :=
        List.mem_filter.mpr
          ⟨List.mem_map_of_mem hmem', beq_iff_eq.mpr (hname'.symm.trans hname)⟩
      rw [Bool.not_eq_true', List.any_eq_false] at hother
      exact hother _ hsame (beq_iff_eq.mpr hexisting)
    exact ⟨id, hnot w hmem,
      hw.holds_of_not_mem h hnot ⟨n, hreached.live, hnout, hname, hvalue⟩⟩
  · rw [List.countP_filter, List.countP_map] at hcount
    obtain ⟨w', hmem', hsame, hne⟩ := exists_ne_of_one_lt_countP hids.of_map hcount w
    obtain ⟨hvalue, hname⟩ : (s.pending w').value = (s.pending w).value ∧ w'.name = w.name := by
      rw [Function.comp, Bool.and_eq_true, beq_iff_eq, beq_iff_eq] at hsame
      exact hsame
    refine ⟨w'.id, fun hid => hne (List.inj_on_of_nodup_map hids hmem' hmem hid), ?_⟩
    rw [← hvalue, ← hname]
    exact hw.holds_of_mem h hids hmem' (hout w' hmem')

/-- Nothing is found wrong with writes of different nodes outside the rule subtree just when all
nodes conform once they are written. -/
theorem Writes.writeViolations_eq_nil_iff (hw : s.Writes ws t) (h : Coherent s)
    (hk : s.KeepsRules) (hids : (ws.map (·.id)).Nodup)
    (houtside : ∀ w ∈ ws, w.name ≠ Vocabulary.ruleSubtree ∧ ¬ t.UnderRules w.parent ∧
      ¬ t.UnderRules w.id) :
    writeViolations s (ws.map s.pending) = [] ↔
      ∀ id n, t.get? id = some n → ¬ t.UnderRules id → Conforms t id n := by
  constructor
  · exact fun hnone => (hk.of_writes h hw houtside hnone).conforms
  · intro hconforms
    have hnone : ∀ node ∈ ws.map s.pending,
        pendingViolations s (ws.map s.pending) node = [] := by
      intro node hnode
      obtain ⟨w, hmem, rfl⟩ := List.mem_map.mp hnode
      have hname := hw.isNodeName_of_mem h hmem
      obtain ⟨type, htype⟩ := hk.types w.name hname
      obtain ⟨m, hm, hout, hmname, hmvalue⟩ :=
        hw.holds_of_mem h hids hmem (houtside w hmem).2.2
      have hrules : ruleFor t w.name = ruleFor s w.name :=
        funext (hw.ruleFor_of_outside h (fun w' hmem' => (houtside w' hmem').2.1) hname)
      obtain ⟨hadmits, hunique⟩ := hconforms w.id m hm hout
      rw [hmname, hrules, hmvalue] at hadmits hunique
      have hcollides : ruleFor s w.name .unique = "true" → (s.pending w).value ≠ "" →
          collides s (ws.map s.pending) (s.pending w) = false := by
        intro hraised hvalue
        by_contra hc
        obtain ⟨id, hne, k, hk', hkout, hkname, hkvalue⟩ := hw.holds_of_collides h hids
          (fun w' hmem' => (houtside w' hmem').2.2) hmem (by simpa using hc)
        exact hne (hunique hraised hvalue id k hk' hkout hkname hkvalue)
      have hpending := name_pending s w
      generalize s.pending w = node at hadmits hcollides hpending ⊢
      rw [← hpending] at hname htype hadmits hcollides
      exact pendingViolations_of_admits h hname hadmits htype hcollides
    rw [writeViolations, List.flatMap_eq_nil_iff.mpr hnone]
    rfl

/-- A value that is found twice is there twice once the nodes are written. -/
theorem Writes.exists_holds_of_duplicate (hw : s.Writes ws t) (h : Coherent s)
    (hids : (ws.map (·.id)).Nodup) (hout : ∀ w ∈ ws, ¬ t.UnderRules w.id)
    (hduplicate : .duplicate name ∈ writeViolations s (ws.map s.pending)) :
    ∃ value, value ≠ "" ∧ ∃ i j, i ≠ j ∧ t.Holds name value i ∧ t.Holds name value j := by
  obtain ⟨node, hnode, rfl, hvalue, hc⟩ := collides_of_duplicate hduplicate
  obtain ⟨w, hmem, rfl⟩ := List.mem_map.mp hnode
  obtain ⟨id, hne, hother⟩ := hw.holds_of_collides h hids hout hmem hc
  exact ⟨_, hvalue, id, w.id, hne, hother, hw.holds_of_mem h hids hmem (hout w hmem)⟩

end Store

namespace Engine

/-- In every store that statements other than renamings lead to, the check of a write with a path
finds nothing wrong just when all nodes would conform to their rulesets after the write, and a value
twice only when two nodes of the name would have it. -/
theorem writeViolations_exact (format : DataFormat) (texts : List String) (text : String)
    (hverbs : ∀ text ∈ texts, (Statement.parse text).verb ≠ .rename) :
    let e : Engine Unit := Engine.runTexts .literal { resolverState := (), format } texts
    let s := e.parse text
    let violations := writeViolations e.store
      (s.planWrites e.store ((s.candidateParents e.store).map Prod.snd))
    s.verb = .write → s.parents ≠ [] → s.childNames.Nodup →
      ∃ q, s.writeUnchecked e.store = .ok q ∧
        (violations = [] ↔ ∀ id n, q.store.get? id = some n → ¬ q.store.UnderRules id →
          Conforms q.store id n) ∧
        ∀ name, .duplicate name ∈ violations → ∃ value, value ≠ "" ∧
          ∃ i j, i ≠ j ∧ q.store.Holds name value i ∧ q.store.Holds name value j := by
  intro e s violations hverb hparents hchildren
  obtain ⟨h, hk⟩ : e.store.Coherent ∧ e.store.KeepsRules :=
    keepsRules_storeAfter format texts hverbs
  have ha := admitted_of_write hverb
  obtain ⟨q, ws, hq, hprogress, hlists, hpending, hids⟩ :=
    ha.writeUnchecked_spec hparents hchildren h
  have hw := hprogress.writes
  have houtside := ha.writes_outside hverb h hk.shape hw (hlists.requested (List.Subset.refl _))
  refine ⟨q, hq, ?_, fun name hduplicate => ?_⟩
  · rw [← hw.writeViolations_eq_nil_iff h hk hids houtside, hpending]
  · refine hw.exists_holds_of_duplicate h hids (fun w hmem => (houtside w hmem).2.2) ?_
    rwa [hpending]

theorem writeViolations_exact_unique :
    let e : Engine Unit := Engine.runTexts .literal { resolverState := () }
      ["write rule.k: unique=true", "write a: k=1"]
    let s := e.parse "write Root.b: k=1"
    let violations := writeViolations e.store
      (s.planWrites e.store ((s.candidateParents e.store).map Prod.snd))
    violations = [.duplicate "k"] ∧ ∃ q, s.writeUnchecked e.store = .ok q ∧
      (violations = [] ↔ ∀ id n, q.store.get? id = some n → ¬ q.store.UnderRules id →
        Conforms q.store id n) ∧
      ∀ name, .duplicate name ∈ violations → ∃ value, value ≠ "" ∧
        ∃ i j, i ≠ j ∧ q.store.Holds name value i ∧ q.store.Holds name value j := by
  intro e s violations
  have hviolations : violations = [.duplicate "k"] := by decide +kernel
  obtain ⟨hverb, hparents, hchildren⟩ :
      s.verb = .write ∧ s.parents ≠ [] ∧ s.childNames.Nodup := by decide +kernel
  exact ⟨hviolations, writeViolations_exact .basic _ _ (by decide +kernel) hverb hparents
    hchildren⟩

end Engine

end TreeDatabase
