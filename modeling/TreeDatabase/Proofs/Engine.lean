import TreeDatabase.Engine
import TreeDatabase.Proofs.Operation.Delete
import TreeDatabase.Proofs.Operation.Enforce
import TreeDatabase.Proofs.Operation.Rename

/-!
# Runs of the engine

What one execution of a statement makes of the store, and what a run of statements keeps that every
execution keeps.
-/

namespace TreeDatabase

namespace Statement

/-- What the execution of a statement makes of a store. -/
inductive Executes (s : Statement) (store : Store) : Store → Prop
  | unchanged : Executes s store store
  | written {t : Store} {ws : List Store.NodeWrite} (admitted : s.Admitted)
      (verb : s.verb = .write) (writes : store.Writes ws t)
      (requested : s.Requested store ((s.candidateParents store).map Prod.snd) ws)
      (checked : Ruleset.writeViolations store (ws.map store.pending) = []) : Executes s store t
  | deleted (admitted : s.Admitted) (verb : s.verb = .delete)
      (prunes : store.Prunes (s.delete store).1) : Executes s store (s.delete store).1
  | renamed {t : Store} (admitted : s.Admitted) (verb : s.verb = .rename)
      (relabels : Relabels s.newName store t) : Executes s store t
  | enforced {t : Store} {ruleset : String} {ws : List Store.NodeWrite} (admitted : s.Admitted)
      (verb : s.verb = .enforce) (enforced : s.Enforced ruleset store t ws) : Executes s store t

theorem Admitted.of_format {s : Statement} (h : s.Admitted) (format : DataFormat) :
    { s with format }.Admitted :=
  ⟨⟨h.oneLine.1, h.oneLine.2, h.oneLine.3, h.oneLine.4⟩, h.verb, h.pathFaults, h.argumentFaults,
    h.hasValidNames, h.verbFaults, h.beginsAtRules, h.pathNames, h.childNames, h.count_kind⟩

/-- A statement that was admitted is never interrupted. -/
theorem Admitted.executeOn_cases {s : Statement} (ha : s.Admitted) {store : Store}
    (h : store.Coherent) : ∃ t response, s.executeOn store = .ok (t, response) ∧ t.Coherent ∧
      s.Executes store t ∧ (response.changed = false → t = store) := by
  have hverb := ha.verb
  rw [executeOn]
  cases hv : s.verb with
  | read => exact ⟨store, s.read store, rfl, h, .unchanged, fun _ => rfl⟩
  | write =>
    rcases ha.write_cases h with
      ⟨violations, hrefuse⟩ | ⟨t, response, ws, hok, ht, hw, hrequested, hchecked, hchanged⟩
    · exact ⟨store, s.refuse violations, hrefuse, h, .unchanged, fun _ => rfl⟩
    · exact ⟨t, response, hok, ht, .written ha hv hw hrequested hchecked, hchanged⟩
  | delete =>
    obtain ⟨ht, hprunes, hchanged⟩ := s.delete_removes h
    exact ⟨_, _, rfl, ht, .deleted ha hv hprunes, hchanged⟩
  | rename =>
    obtain ⟨t, response, hok, ht, hrelabels, hchanged⟩ := ha.rename_renames hv h
    exact ⟨t, response, hok, ht, .renamed ha hv hrelabels, hchanged⟩
  | enforce =>
    rcases ha.enforce_cases hv h with
      ⟨violations, hrefuse⟩ | ⟨t, response, ruleset, ws, hok, henforced, hchanged⟩
    · exact ⟨store, s.refuse violations, hrefuse, h, .unchanged, fun _ => rfl⟩
    · exact ⟨t, response, hok, henforced.writes.coherent h, .enforced ha hv henforced, hchanged⟩
  | exit | begin | commit | rollback | comment | error =>
    rw [hv] at hverb
    exact absurd hverb (by decide)

end Statement

/-! ## Keywords left as they are written -/

namespace Resolver

theorem foldl_fill_literal (store : Store) (sites : List KeywordSite) (s : Statement)
    (state : Unit) : sites.foldl (literal.fill store) (s, state) = (s, state) := by
  induction sites with
  | nil => rfl
  | cons site sites ih => exact ih

/-- A statement with keywords that are left as they are stays as it is, unless children of one name
are a fault. -/
theorem apply_literal (store : Store) (s : Statement) (state : Unit) :
    (literal.apply store s state).1 = s ∨ (literal.apply store s state).1.isError = true := by
  rw [apply]
  split
  · exact .inl rfl
  · rw [foldl_fill_literal]
    dsimp only
    split
    · exact .inr (by simp)
    · exact .inl rfl

end Resolver

namespace Engine

open Resolver

/-! ## Executions -/

theorem verb_parse {σ : Type} (e : Engine σ) (text : String) :
    (e.parse text).verb = (Statement.parse text).verb := by
  rw [parse]

/-- What every text is read as: a statement with faults, one that does not concern the store, or
one that was admitted. -/
theorem parse_cases {σ : Type} (e : Engine σ) (text : String) :
    (sessionResponse? (e.parse text)).isSome = true ∨ (e.parse text).Admitted := by
  rcases Statement.parse_cases text with h | h | h | h
  · exact .inl (by simp [sessionResponse?, parse, h])
  · exact .inl (by simp [sessionResponse?, parse, h])
  · left
    revert h
    simp only [sessionResponse?, parse]
    cases (Statement.parse text).verb <;> simp [Verb.isBare]
  · exact .inr (h.of_format e.format)

/-- One execution keeps the store coherent, and counts as a change when it is one. -/
theorem run_literal (e : Engine Unit) {s : Statement}
    (hs : (sessionResponse? s).isSome = true ∨ s.Admitted) (h : e.store.Coherent) :
    (e.run literal s).1.store.Coherent ∧ s.Executes e.store (e.run literal s).1.store ∧
      ((e.run literal s).2.changed = false → (e.run literal s).1.store = e.store) := by
  rw [run]
  cases hsession : sessionResponse? s with
  | some response => exact ⟨h, .unchanged, fun _ => rfl⟩
  | none =>
    have ha : s.Admitted := hs.resolve_left (by simp [hsession])
    dsimp only
    by_cases herror : (literal.apply e.store s e.resolverState).1.isError = true
    · rw [if_pos herror]
      exact ⟨h, .unchanged, fun _ => rfl⟩
    · rw [if_neg herror, (apply_literal e.store s e.resolverState).resolve_right herror]
      obtain ⟨t, response, hok, ht, hexecutes, hchanged⟩ := ha.executeOn_cases h
      rw [perform]
      dsimp only
      rw [hok]
      exact ⟨ht, hexecutes, hchanged⟩

/-- Whether the store was changed is only noted after an execution. -/
theorem persist_run {σ : Type} (r : Resolver σ) (e : Engine σ) (s : Statement) :
    (e.run r s).1.persist = e.persist := by
  rw [run]
  split
  · rfl
  · dsimp only
    split
    · rfl
    · rw [perform]
      split <;> rfl

/-! ## Repetitions -/

/-- What holds of an engine before a statement is executed some times, and what every execution
keeps, holds afterwards; a statement that has changed nothing leaves the store as it is. -/
theorem runTimes_literal {s : Statement}
    (hs : (sessionResponse? s).isSome = true ∨ s.Admitted) {Inv : Store → Prop}
    (hstep : ∀ store t, store.Coherent → t.Coherent → Inv store → s.Executes store t → Inv t)
    (n : Nat) (e : Engine Unit) (tallies : List Tally) (h : e.store.Coherent) (hinv : Inv e.store) :
    (runTimes literal s n e tallies).1.store.Coherent ∧
      Inv (runTimes literal s n e tallies).1.store ∧
      ((runTimes literal s n e tallies).1.persist = false →
        e.persist = false ∧ (runTimes literal s n e tallies).1.store = e.store) := by
  induction n generalizing e tallies with
  | zero => exact ⟨h, hinv, fun hf => ⟨hf, rfl⟩⟩
  | succ n ih =>
    obtain ⟨ht, hexecutes, hchanged⟩ := run_literal e hs h
    have hinv' := hstep _ _ h ht hinv hexecutes
    have hpersist := persist_run literal e s
    rw [runTimes]
    generalize e.run literal s = ran at ht hchanged hinv' hpersist
    obtain ⟨ran, response⟩ := ran
    dsimp only at ht hchanged hinv' hpersist ⊢
    let counted : Engine Unit := { ran with persist := ran.persist || response.changed }
    have hfirst : counted.persist = false → e.persist = false ∧ counted.store = e.store := by
      intro hfalse
      obtain ⟨hran, hresponse⟩ := Bool.or_eq_false_iff.mp hfalse
      exact ⟨hpersist ▸ hran, hchanged hresponse⟩
    split
    · exact ⟨ht, hinv', hfirst⟩
    · obtain ⟨hu, hinv'', hrest⟩ := ih counted (Tally.record response tallies) ht hinv'
      refine ⟨hu, hinv'', fun hfalse => ?_⟩
      obtain ⟨hcounted, hstore⟩ := hrest hfalse
      obtain ⟨he, hstore'⟩ := hfirst hcounted
      exact ⟨he, hstore.trans hstore'⟩

/-- What every execution of the statement of a text keeps, its execution as often as it asks
keeps. -/
theorem execute_literal (e : Engine Unit) (text : String) {Inv : Store → Prop}
    (hstep : ∀ store t, store.Coherent → t.Coherent → Inv store →
      (e.parse text).Executes store t → Inv t) (h : e.store.Coherent) (hinv : Inv e.store) :
    (e.execute literal text).1.store.Coherent ∧ Inv (e.execute literal text).1.store ∧
      ((e.execute literal text).1.persist = false →
        (e.execute literal text).1.store = e.store) := by
  have hs := parse_cases e text
  rw [execute]
  generalize e.parse text = s at hs hstep
  obtain ⟨ht, hinv', hpersist⟩ :=
    runTimes_literal hs hstep s.repetitions { e with persist := false } [] h hinv
  exact ⟨ht, hinv', fun hfalse => (hpersist hfalse).2⟩

/-- The engine after the statements of some texts. -/
def runTexts {σ : Type} (r : Resolver σ) (e : Engine σ) (texts : List String) : Engine σ :=
  texts.foldl (fun e text => (e.execute r text).1) e

theorem runTexts_cons {σ : Type} (r : Resolver σ) (e : Engine σ) (text : String)
    (texts : List String) :
    e.runTexts r (text :: texts) = (e.execute r text).1.runTexts r texts := by
  rw [runTexts, runTexts, List.foldl_cons]

/-- What every execution of every statement keeps holds after a run of statements. -/
theorem runTexts_literal {texts : List String} {Inv : Store → Prop}
    (hstep : ∀ text ∈ texts, ∀ (e : Engine Unit) store t, store.Coherent → t.Coherent → Inv store →
      (e.parse text).Executes store t → Inv t)
    (e : Engine Unit) (h : e.store.Coherent) (hinv : Inv e.store) :
    (e.runTexts literal texts).store.Coherent ∧ Inv (e.runTexts literal texts).store := by
  induction texts generalizing e with
  | nil => exact ⟨h, hinv⟩
  | cons text texts ih =>
    obtain ⟨ht, hinv', _⟩ := execute_literal e text (hstep text List.mem_cons_self e) h hinv
    rw [runTexts_cons]
    exact ih (fun other hmem => hstep other (List.mem_cons_of_mem _ hmem)) _ ht hinv'

end Engine

end TreeDatabase
