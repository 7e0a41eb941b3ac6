import TreeDatabase.Proofs.Ruleset.Protection

/-!
# Rules after renamings

A renaming does not look at the rules. A node that keeps its name goes on to conform to its ruleset,
but for the new name: under this one a node that was renamed has a value that no check has seen, it
may meet the value of another node, and the ruleset of the name may have been renamed itself.
-/

namespace TreeDatabase

open Ruleset Store

namespace Statement

variable {s t u : Store} {newName : String} {renamed more : List NodeId}

theorem Relabeled.trans (h : Relabeled newName s renamed t) (h' : Relabeled newName t more u) :
    Relabeled newName s (renamed ++ more) u := by
  refine ⟨h'.coherent, fun id => ?_⟩
  obtain ⟨path, hpath⟩ := h.nodes id
  obtain ⟨path', hpath'⟩ := h'.nodes id
  refine ⟨path', ?_⟩
  rw [hpath', hpath, Option.map_map]
  refine congrArg (fun f => (s.get? id).map f) (funext fun n => ?_)
  by_cases hid : id ∈ renamed <;> by_cases hid' : id ∈ more <;> simp [hid, hid']

/-- Some nodes got a new name; neither the name nor any that they had is a reserved word. -/
structure Spares (newName : String) (s : Store) (renamed : List NodeId) (t : Store) : Prop where
  relabeled : Relabeled newName s renamed t
  newName : Vocabulary.isReserved newName = false
  names : ∀ id ∈ renamed, ∀ n, s.get? id = some n → Vocabulary.isReserved n.name = false

namespace Spares

theorem refl (h : s.Coherent) (hnew : Vocabulary.isReserved newName = false) :
    Spares newName s [] s := ⟨.refl h newName, hnew, by simp⟩

theorem trans (h : Spares newName s renamed t) (h' : Spares newName t more u) :
    Spares newName s (renamed ++ more) u := by
  refine ⟨h.relabeled.trans h'.relabeled, h.newName, fun id hid n hn => ?_⟩
  by_cases hfirst : id ∈ renamed
  · exact h.names id hfirst n hn
  · obtain ⟨path, hlive⟩ := h.relabeled.get?_eq_some hn
    rw [if_neg hfirst] at hlive
    have hmore := h'.names id ((List.mem_append.mp hid).resolve_left hfirst) _ hlive
    exact hmore

/-- The nodes of the rule subtree stay the same. -/
theorem underRules_iff (h : Spares newName s renamed t) (hs : s.Coherent) {id : NodeId} :
    t.UnderRules id ↔ s.UnderRules id :=
  h.relabeled.underRules_iff hs (Admitted.ne_ruleSubtree h.newName)
    fun id hid n hn _ => Admitted.ne_ruleSubtree (h.names id hid n hn)

/-- A node with a name other than the new one had it before. -/
theorem of_get? (h : Spares newName s renamed t) {id : NodeId} {m : Node}
    (hm : t.get? id = some m) : ∃ n, s.get? id = some n ∧ m.parent = n.parent ∧
      m.value = n.value ∧ (m.name ≠ newName → n.name = m.name) := by
  obtain ⟨n, hn, heq⟩ := h.relabeled.of_get? hm
  rw [heq]
  refine ⟨n, hn, rfl, rfl, fun hne => ?_⟩
  dsimp only at hne ⊢
  split
  · next hid => simp [hid] at hne
  · rfl

/-- Children with reserved names stay the same. -/
theorem child?_eq (h : Spares newName s renamed t) (hs : s.Coherent) {name : String}
    (hreserved : Vocabulary.isReserved name = true) (parent : NodeId) :
    t.child? parent name = s.child? parent name := by
  apply Option.ext
  intro id
  rw [h.relabeled.coherent.child?_iff_parent, hs.child?_iff_parent]
  constructor
  · rintro ⟨m, hm, hparent, hname⟩
    obtain ⟨n, hn, hsame, _, hback⟩ := h.of_get? hm
    refine ⟨n, hn, hsame.symm.trans hparent, (hback fun heq => ?_).trans hname⟩
    rw [← hname, heq, h.newName] at hreserved
    cases hreserved
  · rintro ⟨n, hn, hparent, hname⟩
    obtain ⟨path, hlive⟩ := h.relabeled.get?_eq_some hn
    refine ⟨_, hlive, hparent, ?_⟩
    dsimp only
    rw [if_neg fun hid => ?_, hname]
    rw [← hname, h.names id hid n hn] at hreserved
    cases hreserved

theorem valueOf?_eq (h : Spares newName s renamed t) (hs : s.Coherent) (kind : RuleKind)
    (parent : NodeId) : t.valueOf? parent kind.name = s.valueOf? parent kind.name := by
  rw [valueOf?, valueOf?, h.child?_eq hs (isReserved_kind kind)]
  cases hc : s.child? parent kind.name with
  | none => rfl
  | some c =>
    obtain ⟨n, hn, _⟩ := hs.child?_iff_parent.mp hc
    obtain ⟨path, hlive⟩ := h.relabeled.get?_eq_some hn
    rw [Option.bind_some, Option.bind_some, hn, hlive]
    rfl

/-! ## Rules -/

/-- The rules of a name are as before when its ruleset is the same node. -/
theorem persisted?_eq (h : Spares newName s renamed t) (hs : s.Coherent) {name : String}
    (hname : isNodeName name = true) (hset : t.ruleset? name = s.ruleset? name)
    (kind : RuleKind) : persisted? t name kind = persisted? s name kind := by
  rw [Ruleset.persisted?_eq h.relabeled.coherent hname, Ruleset.persisted?_eq hs hname, hset]
  cases s.ruleset? name with
  | none => rfl
  | some id => exact h.valueOf?_eq hs kind id

/-- A ruleset for another name than the new one was there before. -/
theorem ruleset?_back (h : Spares newName s renamed t) (hs : s.Coherent) {name : String}
    (hne : name ≠ newName) {id : NodeId} (hid : t.ruleset? name = some id) :
    s.ruleset? name = some id := by
  obtain ⟨rules, hrules, hchild⟩ := Option.bind_eq_some_iff.mp hid
  rw [h.child?_eq hs (by decide)] at hrules
  obtain ⟨m, hm, hparent, hname⟩ := h.relabeled.coherent.child?_iff_parent.mp hchild
  obtain ⟨n, hn, hsame, _, hback⟩ := h.of_get? hm
  have hold : s.child? rules name = some id := hs.child?_iff_parent.mpr
    ⟨n, hn, hsame.symm.trans hparent, (hback (hname ▸ hne)).trans hname⟩
  exact Option.bind_eq_some_iff.mpr ⟨rules, hrules, hold⟩

theorem keepsOrLoses (h : Spares newName s renamed t) (hs : s.Coherent) {name : String}
    (hname : isNodeName name = true) (hne : name ≠ newName) : KeepsOrLoses s t name := by
  cases hset : t.ruleset? name with
  | none =>
    right
    intro kind
    rw [Ruleset.persisted?_eq h.relabeled.coherent hname, hset]
    rfl
  | some id =>
    left
    exact h.persisted?_eq hs hname (hset.trans (h.ruleset?_back hs hne hset).symm)

/-! ## Conformance -/

/-- What can take a node of the new name out of conformance: it was renamed itself, it has got its
value in common with a node that was, or the ruleset of the name is another one. -/
inductive Exposed (newName : String) (s t : Store) (id : NodeId) (m : Node) : Prop
  | renamed {n : Node} (before : s.get? id = some n) (name : n.name ≠ newName)
  | shared {j : NodeId} {n : Node} (unique : ruleFor t newName .unique = "true")
      (value : m.value ≠ "") (other : j ≠ id) (holds : t.Holds newName m.value j)
      (before : s.get? j = some n) (name : n.name ≠ newName)
  | ruleset (moved : t.ruleset? newName ≠ s.ruleset? newName)

/-- A node goes on to conform under the same rules, unless they ask for unique values and another
node of its name has got its value. -/
theorem conforms (h : Spares newName s renamed t) (hs : s.Coherent) {id : NodeId} {n m : Node}
    (hvalid : isNodeName m.name = true) (hold : Conforms s id n) (hname : m.name = n.name)
    (hvalue : m.value = n.value)
    (hrules : ∀ kind, persisted? t m.name kind = persisted? s m.name kind)
    (hothers : ruleFor t m.name .unique = "true" → m.value ≠ "" → ∀ j, j ≠ id →
      t.Holds m.name m.value j → ∃ l, s.get? j = some l ∧ l.name = m.name) :
    Conforms t id m where
  admits := by
    rw [funext (ruleFor_congr hs h.relabeled.coherent hvalid hrules), hname, hvalue]
    exact hold.admits
  unique := by
    intro hunique hne j k hj hout hjname hjvalue
    by_contra hother
    obtain ⟨l, hl, hlname⟩ := hothers hunique hne j hother ⟨k, hj, hout, hjname, hjvalue⟩
    obtain ⟨l', hl', _, hlvalue, _⟩ := h.of_get? hj
    rw [hl] at hl'
    cases hl'
    rw [ruleFor_congr hs h.relabeled.coherent hvalid hrules, hname] at hunique
    exact hother (hold.unique hunique (hvalue ▸ hne) j l hl (mt (h.underRules_iff hs).mpr hout)
      (hlname.trans hname) (hlvalue.symm.trans (hjvalue.trans hvalue)))

/-- A node of the new name that does not go on to conform is one of the three kinds. -/
theorem exposed (h : Spares newName s renamed t) (hs : s.Coherent) {id : NodeId} {n m : Node}
    (hold : Conforms s id n) (hn : s.get? id = some n) (hvalue : m.value = n.value)
    (hvalid : isNodeName m.name = true) (hnew : m.name = newName) (hnot : ¬ Conforms t id m) :
    Exposed newName s t id m := by
  by_cases hname : n.name = newName
  · by_cases hset : t.ruleset? newName = s.ruleset? newName
    · by_contra hunexposed
      refine hnot (h.conforms hs hvalid hold (hnew.trans hname.symm) hvalue
        (h.persisted?_eq hs hvalid (hnew ▸ hset)) fun hunique hne j hother hholds => ?_)
      have ⟨k, hk, _⟩ := hholds
      obtain ⟨l, hl, _⟩ := h.of_get? hk
      rw [hnew] at hunique hholds
      refine ⟨l, hl, by_contra fun hlname => hunexposed ?_⟩
      exact .shared hunique hne hother hholds hl (hnew ▸ hlname)
    · exact .ruleset hset
  · exact .renamed hn hname

/-- Where all nodes conform before a renaming, only nodes of the new name can fail to do so
afterwards, under rules for this name and for one of three reasons. -/
theorem conforms_or_exposed (h : Spares newName s renamed t) (hs : s.Coherent)
    (hconforms : ∀ id n, s.get? id = some n → ¬ s.UnderRules id → Conforms s id n) {id : NodeId}
    {m : Node} (hm : t.get? id = some m) (hout : ¬ t.UnderRules id) : Conforms t id m ∨
      m.name = newName ∧ (∃ ruleset, t.ruleset? newName = some ruleset) ∧
        Exposed newName s t id m := by
  have ht := h.relabeled.coherent
  obtain ⟨n, hn, _, hvalue, hback⟩ := h.of_get? hm
  have hold : Conforms s id n := hconforms id n hn (mt (h.underRules_iff hs).mpr hout)
  refine or_iff_not_imp_left.mpr fun hnot => ?_
  have hvalid : isNodeName m.name = true := (ht.name_cases hm).resolve_left fun hblank =>
    hnot (conforms_default fun kind => hblank ▸ ruleFor_blank ht kind)
  have hunset : ¬ ∀ kind, persisted? t m.name kind = none := fun hnone =>
    hnot (conforms_default (ruleFor_of_unset ht hvalid hnone))
  have hnew : m.name = newName := by
    by_contra hne
    have hkeep := (h.keepsOrLoses hs hvalid hne).resolve_right hunset
    refine hnot (h.conforms hs hvalid hold (hback hne).symm hvalue hkeep fun _ _ j _ hholds => ?_)
    obtain ⟨k, hk, _, hkname, _⟩ := hholds
    obtain ⟨l, hl, _, _, hlback⟩ := h.of_get? hk
    exact ⟨l, hl, (hlback (hkname ▸ hne)).trans hkname⟩
  refine ⟨hnew, ?_, h.exposed hs hold hn hvalue hvalid hnew hnot⟩
  rw [← Option.isSome_iff_exists, ← Option.ne_none_iff_isSome]
  intro hset
  refine hunset fun kind => ?_
  rw [Ruleset.persisted?_eq ht hvalid, hnew, hset]
  rfl

end Spares

end Statement

/-! ## Runs -/

namespace Engine

open Resolver Statement

variable {e : Engine Unit} {s : Statement}

/-- A renaming that does not select the rules of a ruleset spares all reserved words. -/
theorem run_spares (h : e.store.WellPlaced) (ha : s.Admitted) (hverb : s.verb = .rename)
    (hrules : ∀ ruleset, ¬ s.SelectsRules ruleset) :
    ∃ renamed, Spares s.newName e.store renamed (e.run literal s).1.store := by
  obtain ⟨renamed, hrelabeled, hhits⟩ := run_relabeled h.coherent ha hverb
  refine ⟨renamed, hrelabeled, (ha.newNameDemands hverb).2.2.1, fun id hid n hn => ?_⟩
  rw [← Bool.not_eq_true]
  intro hreserved
  obtain ⟨_, ruleset, hselects, _⟩ := ha.selectsRules_of_hits (.inr hverb) h.coherent h.shape
    h.reserved hn (hhits id hid) hreserved
  exact hrules ruleset hselects

/-- It does so however often it is executed. -/
theorem execute_spares (h : e.store.WellPlaced) {text : String}
    (hverb : (e.parse text).verb = .rename)
    (hrules : ∀ ruleset, ¬ (e.parse text).SelectsRules ruleset) :
    ∃ renamed, Spares (e.parse text).newName e.store renamed
      (e.execute literal text).1.store := by
  have ha : (e.parse text).Admitted := admitted_of_verb (.inr hverb)
  rw [execute]
  generalize e.parse text = s at ha hverb hrules ⊢
  let Inv (t : Store) : Prop := t.WellPlaced ∧ ∃ renamed, Spares s.newName e.store renamed t
  have hstep : ∀ ran : Engine Unit, Inv ran.store → Inv (ran.run literal s).1.store := by
    rintro ran ⟨hplaced, renamed, hspares⟩
    obtain ⟨more, hmore⟩ := run_spares hplaced ha hverb hrules
    exact ⟨run_wellPlaced (.inr ha) hplaced, renamed ++ more, hspares.trans hmore⟩
  have hstart : Inv e.store := ⟨h, [], .refl h.coherent (ha.newNameDemands hverb).2.2.1⟩
  exact (runTimes_keeps hstep s.repetitions { e with persist := false } [] hstart).2

/-- In every store that statements lead to in which all nodes outside the rule subtree conform to
their rulesets, a renaming leaves all of them conforming but nodes of the new name under rules for
it, and of these only such as were renamed, have got their value in common with a node that was, or
have got another ruleset. -/
theorem conforms_or_exposed_execute (format : DataFormat) (texts : List String) (text : String) :
    let e : Engine Unit := runTexts .literal { resolverState := (), format } texts
    let s := e.parse text
    let after := (e.execute .literal text).1.store
    s.verb = .rename → (∀ ruleset, ¬ s.SelectsRules ruleset) →
      (∀ id n, e.store.get? id = some n → ¬ e.store.UnderRules id → Conforms e.store id n) →
      ∀ id m, after.get? id = some m → ¬ after.UnderRules id → Conforms after id m ∨
        m.name = s.newName ∧ (∃ ruleset, after.ruleset? s.newName = some ruleset) ∧
          Spares.Exposed s.newName e.store after id m := by
  intro e s after hverb hrules hconforms id m hm hout
  have h : e.store.WellPlaced := wellPlaced_runTexts format texts
  obtain ⟨renamed, hspares⟩ := execute_spares h hverb hrules
  exact hspares.conforms_or_exposed h.coherent hconforms hm hout

theorem conforms_or_exposed_execute_shared :
    let e : Engine Unit := runTexts .literal { resolverState := () }
      ["write rule.code: unique=true", "write a: code=7", "write b: number=7"]
    let s := e.parse "rename Child.number=code Times 2"
    let after := (e.execute .literal "rename Child.number=code Times 2").1.store
    ∀ id m, after.get? id = some m → ¬ after.UnderRules id → Conforms after id m ∨
      m.name = s.newName ∧ (∃ ruleset, after.ruleset? s.newName = some ruleset) ∧
        Spares.Exposed s.newName e.store after id m := by
  intro e s after
  obtain ⟨hverb, hname⟩ : s.verb = .rename ∧ s.selectedName ≠ Vocabulary.wildcard := by
    decide +kernel
  exact conforms_or_exposed_execute .basic _ _ hverb (fun ruleset hselects => hname hselects.name)
    (keepsRules_storeAfter .basic _ (by decide +kernel)).2.conforms

/-- A node is renamed to a name whose rules do not admit its value. -/
theorem rename_breaks_type :
    let e : Engine Unit := runTexts .literal { resolverState := () }
      ["write rule.age: type=integer", "write name=Ann"]
    let after := (e.execute .literal "rename name=age").1.store
    (e.parse "rename name=age").verb = .rename ∧
      (∀ id n, e.store.get? id = some n → ¬ e.store.UnderRules id → Conforms e.store id n) ∧
      ∃ id n, after.get? id = some n ∧ ¬ after.UnderRules id ∧ ¬ Conforms after id n := by
  intro e after
  have h : after.Coherent :=
    (execute_wellPlaced e "rename name=age" (wellPlaced_runTexts .basic _)).coherent
  obtain ⟨hverb, hnode, hrules, hinteger⟩ :
      (e.parse "rename name=age").verb = .rename ∧
        after.get? ⟨9⟩ = some ⟨"age", "Ann", "age", some root, []⟩ ∧
        after.inRuleSubtree ⟨9⟩ = false ∧
        ValueType.ofName? (ruleFor after "age" .type) = some .integer := by
    decide +kernel
  refine ⟨hverb, (keepsRules_storeAfter .basic _ (by decide +kernel)).2.conforms, ⟨9⟩, _, hnode,
    ?_, ?_⟩
  · rw [← h.inRuleSubtree_iff, hrules]
    exact Bool.false_ne_true
  · intro hconforms
    obtain ⟨type, htype, haccepts, _⟩ := hconforms.admits.typed
    cases hinteger.symm.trans htype
    exact absurd haccepts (by decide +kernel)

end Engine

end TreeDatabase
