import TreeDatabase.Proofs.Engine.Atomicity
import TreeDatabase.Proofs.Generator.Answers

/-!
# The names in a store

Statements bring no names into a store but those that they give and those that a resolver answers,
as far as the store takes them. With the standard generators these are names that statements can
give, and written forms of dates.
-/

namespace TreeDatabase

open Store

/-! ## Changes that keep the names -/

namespace Store

variable {P : String → Prop} {s t : Store}

/-- Every node but the root has a name of some kind. -/
structure Named (P : String → Prop) (s : Store) : Prop where
  coherent : s.Coherent
  names : ∀ id n, s.get? id = some n → id ≠ root → P n.name

theorem named_empty (P : String → Prop) : Named P empty := by
  refine ⟨coherent_empty, fun id n hn hid => ?_⟩
  obtain ⟨hroot, _⟩ := get?_empty hn
  exact absurd hroot hid

namespace Named

theorem of_writes (hs : Named P s) {ws : List NodeWrite} (hw : s.Writes ws t)
    (hnames : ∀ w ∈ ws, P w.name) : Named P t := by
  refine ⟨hw.coherent hs.coherent, fun id m hm hid => ?_⟩
  rcases hw.value hs.coherent hm with ⟨_, n, hn, hname, _⟩ | ⟨w, hmem, _, hname, _⟩
  · rw [hname]
    exact hs.names id n hn hid
  · rw [← hname]
    exact hnames w hmem

theorem of_prunes (hs : Named P s) (ht : t.Coherent) (hp : s.Prunes t) : Named P t := by
  refine ⟨ht, fun id m hm hid => ?_⟩
  obtain ⟨n, hn, hname, _⟩ := hp id m hm
  rw [hname]
  exact hs.names id n hn hid

theorem of_relabels (hs : Named P s) (ht : t.Coherent) {newName : String}
    (hr : Statement.Relabels newName s t) (hnew : P newName) : Named P t := by
  refine ⟨ht, fun id m hm hid => ?_⟩
  obtain ⟨n, hn, _, _, _, hname⟩ := hr id m hm
  rcases hname with hname | hname
  · rw [hname]
    exact hs.names id n hn hid
  · rw [hname]
    exact hnew

end Named

end Store

/-! ## Writes, interrupted or not -/

namespace Statement

variable {P : String → Prop} {s : Statement}

/-- A write of a node adds its name, if the store takes it, and no other. -/
theorem writeNode_named {p : Progress} (hs : Named P p.store) {parent : NodeId} {name : String}
    (hname : isNodeName name = true → P name) (value : Option String) :
    Ends (Named P) (fun result => Named P result.1.store) (writeNode p parent name value) := by
  by_cases hwritten : isNodeName name = true ∧ ∃ above, p.store.get? parent = some above
  · obtain ⟨hvalid, above, hp⟩ := hwritten
    obtain ⟨q, id, hq, hcoherent, hwrote, _⟩ := writeNode_spec hs.coherent hp hvalid value
    have hw : p.store.Writes [⟨parent, name, value, id⟩] q.store :=
      .single hs.coherent hwrote hcoherent
    rw [hq]
    exact hs.of_writes hw fun w hmem => by
      rw [List.mem_singleton.mp hmem]
      exact hname hvalid
  · have hrefused : ∃ fault, p.store.insertOrGetChild parent name (value.getD "") =
        .error fault := by
      rw [insertOrGetChild]
      cases hvalid : isNodeName name with
      | false => exact ⟨_, rfl⟩
      | true =>
        have hdead : p.store.get? parent = none := by
          rw [← Option.not_isSome_iff_eq_none, Option.isSome_iff_exists]
          exact fun hlive => hwritten ⟨hvalid, hlive⟩
        have hmissing : p.store.child? parent name = none := by
          rw [child?, hdead]
          rfl
        exact ⟨_, by rw [hmissing, hdead]; rfl⟩
    obtain ⟨fault, hfault⟩ := hrefused
    rw [writeNode, hfault]
    exact hs

theorem writeTarget_named {p : Progress} (hs : Named P p.store) {parent : NodeId} {name : String}
    (hname : isNodeName name = true → P name)
    (hchildren : ∀ child ∈ s.children, isNodeName child.1 = true → P child.1) :
    Ends (Named P) (fun q => Named P q.store) (s.writeTarget parent p name) := by
  rw [writeTarget]
  apply (writeNode_named hs hname s.selectedValue).bind
  intro written hwritten
  apply Ends.foldlM
  · intro q child hchild hq
    exact (writeNode_named hq (hchildren child hchild) _).map fun _ h => h
  · exact hwritten

/-- The wildcard stands for nodes that are there, which have names of the kind already. -/
theorem names_writtenNames {store : Store} (hs : Named P store)
    (hselected : isNodeName s.selectedName = true → P s.selectedName) (parent : NodeId) :
    ∀ name ∈ s.writtenNames store parent, isNodeName name = true → P name := by
  intro name hmem hname
  rw [writtenNames] at hmem
  split at hmem
  · obtain ⟨n, hn, rfl⟩ := List.mem_map.mp hmem
    obtain ⟨id, _, hid⟩ := List.mem_filterMap.mp hn
    apply hs.names id n hid
    rintro rfl
    obtain ⟨r, hr, hblank, _⟩ := hs.coherent.tree.root
    rw [hid] at hr
    cases hr
    exact ne_blank_of_isNodeName hname hblank
  · rw [List.mem_singleton.mp hmem] at hname ⊢
    exact hselected hname

theorem write_named {store : Store} (hs : Named P store)
    (hselected : isNodeName s.selectedName = true → P s.selectedName)
    (hchildren : ∀ child ∈ s.children, isNodeName child.1 = true → P child.1) :
    Ends (Named P) (fun result => Named P result.1) (s.write store) := by
  rw [write]
  split
  · exact hs
  · have hloop : Ends (Named P) (fun q => Named P q.store)
        (((s.candidateParents store).map Prod.snd).foldlM s.writeBelow { store }) := by
      apply Ends.foldlM
      · intro p parent _ hp
        rw [writeBelow]
        apply Ends.foldlM
        · intro q name hmem hq
          exact writeTarget_named hq (names_writtenNames hp hselected parent name hmem) hchildren
        · exact hp
      · exact hs
    apply hloop.bind
    exact fun p hp => hp

/-! ## Definitions and renamings -/

theorem isValidName_rule {name : String} (h : Vocabulary.isRuleName name = true) :
    isValidName name = true := by
  obtain ⟨kind, rfl⟩ := Vocabulary.exists_kind_of_isRuleName h
  cases kind <;> decide

theorem Admitted.isValidName_ruleset (ha : s.Admitted) {ruleset : String}
    (h : s.Defining ruleset) : isValidName ruleset = true := by
  apply ha.isValidName_hierarchy
  cases h with
  | ruleset _ name _ => simp [hierarchy, name]
  | rule path _ _ =>
    obtain ⟨anchor, _, hparents⟩ := eq_append_behindRoot s.parents
    rw [hierarchy, hparents, path]
    simp

theorem Admitted.isValidName_inRuleset (ha : s.Admitted) {ruleset : String}
    (h : s.Defining ruleset) {t : Store} {w : NodeWrite} (hw : InRuleset t ruleset w) :
    isValidName w.name = true := by
  cases hw with
  | rules _ name =>
    rw [name]
    decide
  | ruleset _ name =>
    rw [name]
    exact ha.isValidName_ruleset h
  | rule _ name => exact isValidName_rule name

/-! ## Operations -/

/-- What a resolver makes of a statement that was admitted adds its own names and those that the
resolver answered. -/
theorem Admitted.executeOn_named (ha : s.Admitted) (hP : ∀ name, isValidName name = true → P name)
    {resolved : Statement} (hverb : resolved.verb = s.verb)
    (hsame : s.verb = .rename ∨ s.verb = .enforce → resolved = s)
    (hselected : isNodeName resolved.selectedName = true → P resolved.selectedName)
    (hchildren : ∀ child ∈ resolved.children, isNodeName child.1 = true → P child.1)
    {store : Store} (hs : Named P store) :
    Ends (Named P) (fun result => Named P result.1) (resolved.executeOn store) := by
  have hmem := ha.verb
  rw [executeOn, hverb]
  cases hv : s.verb with
  | read => exact hs
  | write => exact write_named hs hselected hchildren
  | delete =>
    obtain ⟨ht, hprunes, _⟩ := resolved.delete_removes hs.coherent
    exact hs.of_prunes ht hprunes
  | rename =>
    rw [hsame (.inl hv)]
    obtain ⟨t, response, hok, ht, hrelabels, _⟩ := ha.rename_renames hv hs.coherent
    dsimp only
    rw [hok]
    exact hs.of_relabels ht hrelabels (hP _ (ha.newNameDemands hv).2.1)
  | enforce =>
    rw [hsame (.inr hv)]
    dsimp only
    rcases ha.enforce_cases hv hs.coherent with
      ⟨violations, hrefuse⟩ | ⟨t, response, ruleset, ws, hok, henforced, _⟩
    · rw [hrefuse]
      exact hs
    · rw [hok]
      exact hs.of_writes henforced.writes fun w hw =>
        hP _ (ha.isValidName_inRuleset henforced.defining (henforced.places w hw))
  | exit | begin | commit | rollback | comment | error =>
    rw [hv] at hmem
    exact absurd hmem (by decide)

end Statement

/-! ## Runs -/

/-- The names that a statement gives to nodes are of some kind. -/
def Statement.Gives (P : String → Prop) (s : Statement) : Prop :=
  P s.selectedName ∧ ∀ name ∈ s.childNames, P name

theorem Statement.Gives.setField {P : String → Prop} {s : Statement} (hs : s.Gives P)
    (field : Field) {text : String} (htext : P text) : (s.setField field text).Gives P := by
  constructor
  · cases field with
    | selectedName => exact htext
    | selectedValue => exact hs.1
    | childName i => exact hs.1
    | childValue i => exact hs.1
  · intro name hmem
    obtain ⟨i, hi⟩ := List.mem_iff_getElem?.mp hmem
    by_cases hfield : field = .childName i
    · subst hfield
      simp only [Statement.setField, childNames, List.getElem?_map, List.getElem?_modify_eq] at hi
      obtain ⟨_, hchild, rfl⟩ := Option.map_eq_some_iff.mp hi
      obtain ⟨_, _, rfl⟩ := Option.map_eq_some_iff.mp hchild
      exact htext
    · rw [s.getElem?_childNames_setField hfield] at hi
      exact hs.2 name (List.mem_of_getElem? hi)

namespace Resolver

/-- The standard generators in a larger state, which tells for each request what number is next,
what is drawn and what the clock shows, and which takes in what the answer leaves. -/
def standardWithin {σ : Type} (view : σ → StandardState) (after : σ → StandardState → σ) :
    Resolver σ :=
  ⟨fun request store state =>
    let (answer, left) := standard.resolve request store (view state)
    (answer, after state left)⟩

/-- The standard generators with a clock that is read at every request. -/
def clocked (clock : Nat → Moment) : Resolver (Nat × StandardState) :=
  .standardWithin (fun state => { state.2 with now := clock state.1 })
    fun state left => (state.1 + 1, left)

theorem standard_eq_standardWithin : standard = .standardWithin id fun _ left => left := rfl

end Resolver

namespace Engine

variable {σ : Type} {r : Resolver σ} {P : String → Prop}

/-- One execution keeps names of a kind that has all that statements can give, and all that the
resolver answers and nodes can have. -/
theorem run_named (hP : ∀ name, Statement.isValidName name = true → P name)
    (hanswer : ∀ request store state text, (r.resolve request store state).1 = some text →
      isNodeName text = true → P text)
    {e : Engine σ} {s : Statement} (ha : (sessionResponse? s).isSome = true ∨ s.Admitted)
    (hsites : s.verb = .rename ∨ s.verb = .enforce → s.sites = []) (hs : Named P e.store) :
    Named P (e.run r s).1.store := by
  rcases run_cases r e s with hsame | ⟨resolved, happly, hverb, hsession, hcases⟩
  · exact hsame ▸ hs
  · have hadmitted : s.Admitted := ha.resolve_left (by simp [hsession])
    have hsame : s.verb = .rename ∨ s.verb = .enforce → resolved = s := by
      intro hkept
      rw [← happly, Resolver.apply_of_sites_eq_nil (hsites hkept)]
    -- Answers that no node can have as its name get this far; only the store refuses them.
    have hgives : resolved.Gives fun name => isNodeName name = true → P name := by
      have hstart : s.Gives fun name => isNodeName name = true → P name :=
        ⟨fun _ => hP _ (hadmitted.isValidName_hierarchy _ (by simp [Statement.hierarchy])),
          fun name hmem _ => hP _ (hadmitted.isValidName_child name hmem)⟩
      obtain ⟨filled, hfilled, heq⟩ := r.apply_keeps e.store s hstart
        (fun t site _ state text ht htext =>
          ht.setField site.field (hanswer site.request e.store state text htext)) e.resolverState
      rw [happly] at heq
      rcases heq with rfl | ⟨_, rfl⟩
      · exact hfilled
      · exact hfilled
    have hends := hadmitted.executeOn_named hP hverb hsame hgives.1
      (fun child hchild => hgives.2 child.1 (List.mem_map_of_mem hchild)) hs
    rcases hcases with ⟨t, response, hok, hstore, _⟩ | ⟨stop, hstop, hstore⟩
    · rw [hok] at hends
      exact hstore ▸ hends
    · rw [hstop] at hends
      exact hstore ▸ hends

/-- What every single execution of a statement keeps, its repetition keeps. -/
theorem runTimes_keeps {Inv : Store → Prop} {s : Statement}
    (hrun : ∀ e : Engine σ, Inv e.store → Inv (e.run r s).1.store) (n : Nat) (e : Engine σ)
    (tallies : List Tally) (h : Inv e.store) : Inv (runTimes r s n e tallies).1.store := by
  induction n generalizing e tallies with
  | zero => exact h
  | succ n ih =>
    have hran := hrun e h
    rw [runTimes]
    dsimp only
    split
    · exact hran
    · exact ih _ _ hran

/-- What every execution of a text keeps, a run of texts keeps. -/
theorem runTexts_keeps {Inv : Store → Prop}
    (hexecute : ∀ (e : Engine σ) (text : String), Inv e.store → Inv (e.execute r text).1.store)
    (texts : List String) (e : Engine σ) (h : Inv e.store) : Inv (e.runTexts r texts).store := by
  induction texts generalizing e with
  | nil => exact h
  | cons text texts ih =>
    rw [runTexts_cons]
    exact ih _ (hexecute e text h)

theorem execute_named (hP : ∀ name, Statement.isValidName name = true → P name)
    (hanswer : ∀ request store state text, (r.resolve request store state).1 = some text →
      isNodeName text = true → P text)
    (e : Engine σ) (text : String) (hs : Named P e.store) :
    Named P (e.execute r text).1.store := by
  have hsites := e.sites_parse text
  have hparse := parse_cases e text
  rw [execute]
  generalize e.parse text = s at hsites hparse
  exact runTimes_keeps (fun _ h => run_named hP hanswer hparse hsites h) _
    { e with persist := false } _ hs

/-- Whatever a resolver answers, statements keep a store coherent. -/
theorem coherent_runTexts (r : Resolver σ) (texts : List String) (e : Engine σ)
    (h : e.store.Coherent) : (e.runTexts r texts).store.Coherent := by
  have hs : Named (fun _ => True) e.store := ⟨h, fun _ _ _ _ => True.intro⟩
  exact (runTexts_keeps (fun e text => execute_named (fun _ _ => True.intro)
    (fun _ _ _ _ _ _ => True.intro) e text) texts e hs).coherent

/-- After any statements, whatever is drawn and whatever the clock shows at each keyword, every node
below the root has a name that statements can give, or the written form of a date. -/
theorem names_runTexts_standard {σ : Type} (view : σ → StandardState)
    (after : σ → StandardState → σ) (start : σ) (format : DataFormat) (texts : List String)
    (id : NodeId) (n : Node) :
    (runTexts (.standardWithin view after) { resolverState := start, format } texts).store.get? id =
        some n →
      id = root ∨ n.name ≠ "" ∧ (Statement.isValidName n.name = true ∨
        ∃ date : Calendar.Date, n.name = date.render) := by
  have hs := runTexts_keeps (execute_named (r := .standardWithin view after)
    (P := Standard.IsNameOrDate) (fun _ h => .inl h)
    fun request store state => Standard.isNameAnswer_resolve request store (view state)) texts
    { resolverState := start, format } (named_empty _)
  intro hn
  by_cases hid : id = root
  · exact .inl hid
  · exact .inr ⟨ne_blank_of_isNodeName (hs.coherent.tree.name hn hid), hs.names id n hn hid⟩

/-- The first date of all becomes a name. -/
theorem date_runTexts_firstDraws :
    ((runTexts .standard firstDraws ["write Date"]).store.get? ⟨1⟩).map (·.name) =
      some "01/01/1920" := by
  decide +kernel

/-- The first of all draws, and a clock that goes on to the next day while a statement is repeated.
-/
theorem names_runTexts_standard_date :
    (∃ n, (runTexts .standard firstDraws ["write Date"]).store.get? ⟨1⟩ = some n ∧
      ((⟨1⟩ : NodeId) = root ∨ n.name ≠ "" ∧ (Statement.isValidName n.name = true ∨
        ∃ date : Calendar.Date, n.name = date.render))) ∧
    let clock : Nat → Moment := fun n => ⟨⟨2024, 1, 1 + n⟩, ⟨0, 0, 0⟩⟩
    let e := runTexts (.clocked clock) { resolverState := (0, firstDraws.resolverState) }
      ["write Date now Times 2"]
    ∃ n m, e.store.get? ⟨1⟩ = some n ∧ n.name = "01/01/2024" ∧
      e.store.get? ⟨2⟩ = some m ∧ m.name = "01/02/2024" ∧
      ((⟨2⟩ : NodeId) = root ∨ m.name ≠ "" ∧ (Statement.isValidName m.name = true ∨
        ∃ date : Calendar.Date, m.name = date.render)) := by
  constructor
  · obtain ⟨n, hn, _⟩ := Option.map_eq_some_iff.mp date_runTexts_firstDraws
    rw [Resolver.standard_eq_standardWithin] at hn ⊢
    exact ⟨n, hn, names_runTexts_standard id (fun _ left => left) firstDraws.resolverState
      firstDraws.format ["write Date"] ⟨1⟩ n hn⟩
  · unfold Resolver.clocked
    intro clock e
    have hfirst : (e.store.get? ⟨1⟩).map (·.name) = some "01/01/2024" := by decide +kernel
    have hsecond : (e.store.get? ⟨2⟩).map (·.name) = some "01/02/2024" := by decide +kernel
    obtain ⟨n, hn, hname⟩ := Option.map_eq_some_iff.mp hfirst
    obtain ⟨m, hm, hname'⟩ := Option.map_eq_some_iff.mp hsecond
    exact ⟨n, m, hn, hname, hm, hname', names_runTexts_standard _ _ _ _ _ ⟨2⟩ m hm⟩

/-- A date that is generated for a name is no name that statements can give. -/
theorem name_of_date : ∃ id n, (runTexts .standard firstDraws ["write Date"]).store.get? id =
    some n ∧ id ≠ root ∧ Statement.isValidName n.name = false := by
  obtain ⟨n, hn, hname⟩ := Option.map_eq_some_iff.mp date_runTexts_firstDraws
  refine ⟨⟨1⟩, n, hn, by decide, ?_⟩
  rw [hname]
  decide

end Engine

end TreeDatabase
