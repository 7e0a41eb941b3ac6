import TreeDatabase.Generator.Standard
import TreeDatabase.Proofs.Engine.Resolution

/-!
# Statements that fail

An execution that answers an error has changed nothing, but for one case: a write is interrupted
half-way by the name of a child that a keyword gave and that no node can have.
-/

namespace TreeDatabase

open Store

theorem Ends.trivial {α : Type} (x : Except Interruption α) :
    Ends (fun _ => True) (fun _ => True) x := by
  cases x <;> exact True.intro

namespace Statement

variable {s : Statement} {store : Store}

/-! ## Answers that are errors -/

theorem isError_counted {verb : Verb} (hverb : verb ≠ .error) (lines : List String) (count : Nat)
    (changed : Bool) : (Response.counted verb lines count changed).isError = false := by
  simp [Response.counted, Response.isError, hverb]

/-- An operation that answers an error, and is not interrupted, leaves the store as it is. -/
theorem executeOn_isError (s : Statement) (store : Store) :
    Ends (fun _ => True) (fun result => result.2.isError = true → result.1 = store)
      (s.executeOn store) := by
  have hcounted : ∀ {verb : Verb} {lines : List String} {count : Nat} {changed : Bool} {t : Store},
      verb ≠ .error → (Response.counted verb lines count changed).isError = true → t = store := by
    intro verb lines count changed t hverb herror
    rw [isError_counted hverb] at herror
    cases herror
  rw [executeOn]
  split
  · exact fun _ => rfl
  · rw [write]
    split
    · exact fun _ => rfl
    · apply (Ends.trivial _).bind
      exact fun _ _ => hcounted (by decide)
  · exact hcounted (by decide)
  · rw [rename]
    apply (Ends.trivial _).bind
    exact fun _ _ => hcounted (by decide)
  · rw [enforce]
    split
    · exact fun _ => rfl
    · apply (Ends.trivial _).bind
      intro ensured _
      apply (Ends.trivial _).bind
      intro p _
      apply (Ends.trivial _).bind
      intro completed _ herror
      cases herror
  · exact fun _ => rfl

/-! ## Interruptions of a write -/

/-- A write below parents that are there is not interrupted when all names that it writes can name
nodes. -/
theorem exists_foldlM_writeBelow (hchildren : ∀ child ∈ s.children, isNodeName child.1 = true)
    (hname : s.selectedName = Vocabulary.wildcard ∨ isNodeName s.selectedName = true)
    {parents : List NodeId} {p : Progress} (h : p.store.Coherent)
    (hlive : ∀ parent ∈ parents, ∃ above, p.store.get? parent = some above) :
    ∃ q, parents.foldlM s.writeBelow p = .ok q := by
  induction parents generalizing p with
  | nil => exact ⟨p, rfl⟩
  | cons parent parents ih =>
    obtain ⟨above, habove⟩ := hlive parent List.mem_cons_self
    obtain ⟨q, ws, hq, hprogress, _⟩ := writeBelow_progresses hchildren h habove
      (isNodeName_writtenNames h hname parent)
    have hlive' : ∀ parent ∈ parents, ∃ above, q.store.get? parent = some above := by
      intro other hother
      obtain ⟨n, hn⟩ := hlive other (List.mem_cons_of_mem _ hother)
      obtain ⟨m, hm, _⟩ := hprogress.writes.kept hn
      exact ⟨m, hm⟩
    obtain ⟨u, hu⟩ := ih (hprogress.writes.coherent h) hlive'
    exact ⟨u, by rw [List.foldlM_cons, hq]; exact hu⟩

/-- A write of a name that no node can have is interrupted before it changes anything. -/
theorem writeBelow_of_not_isNodeName (hwild : s.selectedName ≠ Vocabulary.wildcard)
    (hname : isNodeName s.selectedName = false) (p : Progress) (parent : NodeId) :
    s.writeBelow p parent = .error ⟨.invalidNodeName s.selectedName, p.store⟩ := by
  have hinsert : p.store.insertOrGetChild parent s.selectedName (s.selectedValue.getD "") =
      .error (.invalidNodeName s.selectedName) := by
    rw [insertOrGetChild, hname]
    rfl
  have hnode : writeNode p parent s.selectedName s.selectedValue =
      .error ⟨.invalidNodeName s.selectedName, p.store⟩ := by
    rw [writeNode, hinsert]
    rfl
  rw [writeBelow, writtenNames, if_neg hwild, List.foldlM_cons, writeTarget, hnode]
  rfl

/-- A write that is interrupted has changed nothing when all children can be nodes. -/
theorem write_interrupted (h : store.Coherent)
    (hchildren : ∀ child ∈ s.children, isNodeName child.1 = true) :
    Ends (· = store) (fun _ => True) (s.write store) := by
  have hlive := live_of_mem_candidateParents (s := s) h
  rw [write]
  split
  · exact True.intro
  · have hloop : Ends (· = store) (fun _ => True)
        (((s.candidateParents store).map Prod.snd).foldlM s.writeBelow { store }) := by
      by_cases hname : s.selectedName = Vocabulary.wildcard ∨ isNodeName s.selectedName = true
      · obtain ⟨q, hq⟩ := exists_foldlM_writeBelow hchildren hname (p := { store }) h hlive
        rw [hq]
        exact True.intro
      · obtain ⟨hwild, hinvalid⟩ := not_or.mp hname
        cases (s.candidateParents store).map Prod.snd with
        | nil => exact True.intro
        | cons parent parents =>
          rw [List.foldlM_cons, writeBelow_of_not_isNodeName hwild (by simpa using hinvalid)]
          exact rfl
    exact hloop.bind fun _ _ => True.intro

end Statement

/-! ## Executions -/

/-- A keyword gave a child of a statement a name that no node can have. -/
def Resolver.GivesBadChild {σ : Type} (r : Resolver σ) (store : Store) (s : Statement)
    (state : σ) : Prop :=
  ∃ site ∈ s.sites, ∃ i, site.field = .childName i ∧
    ∃ name, (r.apply store s state).1.childNames[i]? = some name ∧ isNodeName name = false

/-- Of the names of children, only those that keywords gave can be bad. -/
theorem Statement.Admitted.givesBadChild {σ : Type} {r : Resolver σ} {s : Statement}
    (ha : s.Admitted) {store : Store} {state : σ} {name : String}
    (hmem : name ∈ (r.apply store s state).1.childNames) (hname : isNodeName name = false) :
    r.GivesBadChild store s state := by
  obtain ⟨i, hi⟩ := List.mem_iff_getElem?.mp hmem
  by_cases hsites : ∀ site ∈ s.sites, site.field ≠ .childName i
  · rw [Resolver.getElem?_childNames_apply hsites] at hi
    obtain ⟨child, hchild, rfl⟩ := List.mem_map.mp (List.mem_of_getElem? hi)
    rw [ha.isNodeName_child child hchild] at hname
    cases hname
  · push Not at hsites
    obtain ⟨site, hsite, hfield⟩ := hsites
    exact ⟨site, hsite, i, hfield, name, hi, hname⟩

/-- As they are written, all names of children can be those of nodes. -/
theorem Statement.Admitted.not_givesBadChild_literal {s : Statement} (ha : s.Admitted)
    (store : Store) (state : Unit) : ¬ Resolver.literal.GivesBadChild store s state := by
  intro ⟨site, _, i, _, name, hi, hname⟩
  obtain ⟨filled, hfilled, heq⟩ := Resolver.literal.apply_keeps store s
    (motive := fun t => t.childNames = s.childNames) rfl
    (fun _ _ _ _ _ _ hanswer => by cases hanswer) state
  have hsame : (Resolver.literal.apply store s state).1.childNames = s.childNames := by
    rcases heq with heq | ⟨_, heq⟩
    · rw [heq, hfilled]
    · rw [heq]
      exact hfilled
  rw [hsame] at hi
  obtain ⟨child, hchild, rfl⟩ := List.mem_map.mp (List.mem_of_getElem? hi)
  rw [ha.isNodeName_child child hchild] at hname
  cases hname

namespace Engine

variable {σ : Type} {r : Resolver σ} {e : Engine σ}

/-- A single execution that answers an error leaves the store as it is, unless it is a write with a
child that no node can be. -/
theorem run_of_isError {s : Statement} (ha : (sessionResponse? s).isSome = true ∨ s.Admitted)
    (hsites : s.verb = .rename ∨ s.verb = .enforce → s.sites = []) (h : e.store.Coherent)
    (herror : (e.run r s).2.isError = true) :
    (e.run r s).1.store = e.store ∨
      s.verb = .write ∧ r.GivesBadChild e.store s e.resolverState := by
  rcases run_cases r e s with hsame | ⟨resolved, happly, hverb, hsession, hcases⟩
  · exact .inl hsame
  · have hadmitted : s.Admitted := ha.resolve_left (by simp [hsession])
    rcases hcases with ⟨t, response, hok, hstore, hresponse⟩ | ⟨stop, hstop, hstore⟩
    · left
      have hends := resolved.executeOn_isError e.store
      rw [hok] at hends
      rw [hstore]
      exact hends (hresponse ▸ herror)
    · rw [hstore]
      -- Without keyword sites a statement is executed as it was admitted, which nothing interrupts.
      have huninterrupted : s.sites = [] → False := by
        intro hnil
        rw [Resolver.apply_of_sites_eq_nil hnil] at happly
        obtain ⟨_, _, hok, _⟩ := hadmitted.executeOn_cases h
        rw [← happly, hok] at hstop
        cases hstop
      have hmem := hadmitted.verb
      cases hv : s.verb with
      | write =>
        rw [Statement.executeOn, hverb, hv] at hstop
        by_cases hchildren : ∀ child ∈ resolved.children, isNodeName child.1 = true
        · have hends := Statement.write_interrupted h hchildren
          rw [show resolved.write e.store = .error stop from hstop] at hends
          exact .inl hends
        · right
          push Not at hchildren
          obtain ⟨child, hchild, hname⟩ := hchildren
          have hmem : child.1 ∈ (r.apply e.store s e.resolverState).1.childNames :=
            happly ▸ List.mem_map_of_mem hchild
          exact ⟨rfl, hadmitted.givesBadChild hmem (by simpa using hname)⟩
      | rename => exact (huninterrupted (hsites (.inl hv))).elim
      | enforce => exact (huninterrupted (hsites (.inr hv))).elim
      | read =>
        rw [Statement.executeOn, hverb, hv] at hstop
        cases hstop
      | delete =>
        rw [Statement.executeOn, hverb, hv] at hstop
        cases hstop
      | exit | begin | commit | rollback | comment | error =>
        rw [hv] at hmem
        exact absurd hmem (by decide)

theorem sites_parse (e : Engine σ) (text : String)
    (hverb : (e.parse text).verb = .rename ∨ (e.parse text).verb = .enforce) :
    (e.parse text).sites = [] := by
  rw [e.verb_parse] at hverb
  have hsites := Statement.sites_parse_eq_nil hverb
  rw [parse]
  generalize Statement.parse text = s at hsites
  exact hsites

/-- A statement that is executed once does what this execution does, and answers the same. -/
theorem execute_once (r : Resolver σ) (e : Engine σ) {text : String}
    (hn : (Statement.parse text).repetitions = 1) :
    (e.execute r text).1.store =
        (run r { e with persist := false } (e.parse text)).1.store ∧
      (e.execute r text).2.isError =
        (run r { e with persist := false } (e.parse text)).2.isError := by
  have hn' : (e.parse text).repetitions = 1 := by
    rw [← hn, parse]
  rw [execute]
  generalize e.parse text = s at hn'
  dsimp only
  rw [hn', runTimes, Reply.isError]
  dsimp only
  split
  · exact ⟨rfl, by simp [Tally.record]⟩
  · exact ⟨rfl, by simp [runTimes, Tally.record]⟩

/-- What `run_of_isError` says holds of all that the parser reads. -/
theorem run_parse_of_isError (text : String) (h : e.store.Coherent)
    (herror : (e.run r (e.parse text)).2.isError = true) :
    (e.run r (e.parse text)).1.store = e.store ∨ (Statement.parse text).verb = .write ∧
      r.GivesBadChild e.store (e.parse text) e.resolverState := by
  rw [← e.verb_parse]
  have hsites := e.sites_parse text
  have hparse := parse_cases e text
  generalize e.parse text = s at hsites hparse herror ⊢
  exact run_of_isError hparse hsites h herror

/-- With keywords left as they are written, a statement that is executed once and answers an error
has left the store as it was. -/
theorem execute_literal_of_isError (e : Engine Unit) (text : String) (h : e.store.Coherent)
    (hn : (Statement.parse text).repetitions = 1)
    (herror : (e.execute .literal text).2.isError = true) :
    (e.execute .literal text).1.store = e.store := by
  obtain ⟨hstore, hisError⟩ := execute_once .literal e hn
  rw [hisError] at herror
  rw [hstore]
  rcases run_parse_of_isError (e := { e with persist := false }) text h herror with
    hsame | ⟨hwrite, hbad⟩
  · exact hsame
  · rw [← e.verb_parse] at hwrite
    have ha := (parse_cases e text).resolve_left (by simp [sessionResponse?, hwrite])
    exact absurd hbad (ha.not_givesBadChild_literal _ _)

/-- A statement that is executed once and answers an error has left the store as it was, unless it
is a write and a keyword gave a child a name that no node can have. -/
theorem execute_of_isError (r : Resolver σ) (e : Engine σ) (text : String)
    (h : e.store.Coherent) (hn : (Statement.parse text).repetitions = 1)
    (herror : (e.execute r text).2.isError = true) :
    (e.execute r text).1.store = e.store ∨ (Statement.parse text).verb = .write ∧
      r.GivesBadChild e.store (e.parse text) e.resolverState := by
  obtain ⟨hstore, hisError⟩ := execute_once r e hn
  rw [hisError] at herror
  rw [hstore]
  exact run_parse_of_isError (e := { e with persist := false }) text h herror

/-- The standard generators on the first draws of all, on a day that does not matter here. -/
def firstDraws : Engine StandardState :=
  { resolverState := { draws := ⟨fun _ => 0, 0⟩, now := ⟨⟨2020, 1, 1⟩, ⟨0, 0, 0⟩⟩ } }

theorem execute_of_isError_blank_child :
    (firstDraws.execute .standard "write a: Text 0").1.store = firstDraws.store ∨
      (Statement.parse "write a: Text 0").verb = .write ∧
        Resolver.standard.GivesBadChild firstDraws.store (firstDraws.parse "write a: Text 0")
          firstDraws.resolverState :=
  execute_of_isError .standard firstDraws "write a: Text 0" coherent_empty (by decide +kernel)
    (by decide +kernel)

/-- A text of no letters names no node, but the node above it has been made when this shows. -/
theorem execute_blank_child : (Statement.parse "write a: Text 0").repetitions = 1 ∧
    (firstDraws.execute .standard "write a: Text 0").2.isError = true ∧
    (firstDraws.execute .standard "write a: Text 0").1.store ≠ firstDraws.store := by
  refine ⟨by decide +kernel, by decide +kernel, fun heq => ?_⟩
  have hchild :
      (firstDraws.execute .standard "write a: Text 0").1.store.child? root "a" ≠ none := by
    decide +kernel
  rw [heq] at hchild
  exact hchild (by decide +kernel)

end Engine

end TreeDatabase
