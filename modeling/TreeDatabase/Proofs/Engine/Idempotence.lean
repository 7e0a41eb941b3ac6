import TreeDatabase.Proofs.Engine.Reading
import TreeDatabase.Proofs.Engine.Repetition
import TreeDatabase.Proofs.Operation.Rewriting
import TreeDatabase.Proofs.Ruleset.Redefinition

/-!
# Statements that are executed again

A write with a path and a definition of rules make the store what they ask for. Executed again, as
long as nothing happens in between, they find it so.
-/

namespace TreeDatabase

namespace Statement

variable {s : Statement} {store t : Store}

theorem isError_refuse (s : Statement) (violations : List Violation) :
    (s.refuse violations).isError = true := by
  simp [refuse, Response.ofFaults, Response.message, Response.isError]

/-- What a write with a path or a definition has done without an error changes nothing when it is
done again. -/
theorem Admitted.executeOn_again (ha : s.Admitted)
    (hverb : s.verb = .write ∧ s.parents ≠ [] ∨ s.verb = .enforce) (hchildren : s.childNames.Nodup)
    (h : store.Coherent) (hshape : store.RuleShape) {response : Response}
    (hok : s.executeOn store = .ok (t, response)) (herror : response.isError = false) :
    ∃ again, s.executeOn t = .ok (t, again) ∧ again.isError = false ∧ again.changed = false := by
  have hrefused : ∀ {violations}, response ≠ s.refuse violations := by
    rintro violations rfl
    rw [isError_refuse] at herror
    cases herror
  rcases hverb with ⟨hverb, hparents⟩ | hverb
  · simp only [executeOn, hverb] at hok ⊢
    refine ha.write_again hverb hparents hchildren h hshape hok (by_contra fun hviolations => ?_)
    rw [write, if_pos hviolations] at hok
    exact hrefused (Prod.mk.inj (Except.ok.inj hok)).2.symm
  · simp only [executeOn, hverb] at hok ⊢
    refine ha.enforce_again hverb hchildren h hok (by_contra fun hviolations => ?_)
    rw [enforce_of_violations hviolations] at hok
    exact hrefused (Prod.mk.inj (Except.ok.inj hok)).2.symm

end Statement

namespace Engine

open Resolver

variable {e : Engine Unit} {text : String}

theorem parse_congr {e' : Engine Unit} (h : e'.format = e.format) :
    e'.parse text = e.parse text := by
  rw [parse, parse, h]

theorem isError_once (s : Statement) (response : Response) :
    (⟨s, [⟨response, 1⟩]⟩ : Reply).isError = response.isError := by
  simp [Reply.isError]

/-- A text that is executed once does what the operation does that it asks for. -/
theorem execute_of_ok (hn : (Statement.parse text).repetitions = 1)
    (hsession : sessionResponse? (e.parse text) = none)
    (hchildren : (e.parse text).childNames.Nodup) {t : Store} {response : Response}
    (hok : (e.parse text).executeOn e.store = .ok (t, response)) :
    e.execute literal text = ({ e with store := t, persist := response.changed },
      ⟨e.parse text, [⟨response, 1⟩]⟩) := by
  rw [execute_eq_run _ _ hn, run_literal_of_ok hsession hchildren hok]

/-- An engine that has executed a write with a path, or a definition, without an error has nothing
to do when it executes it again. -/
theorem execute_execute (h : e.store.Coherent) (hshape : e.store.RuleShape)
    (hn : (Statement.parse text).repetitions = 1)
    (hverb : (e.parse text).verb = .write ∧ (e.parse text).parents ≠ [] ∨
      (e.parse text).verb = .enforce)
    (hok : (e.execute literal text).2.isError = false) :
    let once := e.execute literal text
    let twice := once.1.execute literal text
    twice.2.isError = false ∧ twice.1.persist = false ∧ twice.1.store = once.1.store := by
  have hsession : sessionResponse? (e.parse text) = none := by
    rcases hverb with ⟨hverb, _⟩ | hverb <;> simp [sessionResponse?, hverb]
  have ha := (parse_cases e text).resolve_left (by simp [hsession])
  have hchildren : (e.parse text).childNames.Nodup := by
    rw [execute_eq_run _ _ hn, isError_once] at hok
    exact nodup_childNames_of_not_isError hsession hok
  obtain ⟨t, response, hfirst, _⟩ := ha.executeOn_cases h
  have honce := execute_of_ok hn hsession hchildren hfirst
  rw [honce, isError_once] at hok
  obtain ⟨again, hsecond, herror, hchanged⟩ :=
    ha.executeOn_again hverb hchildren h hshape hfirst hok
  let e' : Engine Unit := { e with store := t, persist := response.changed }
  have hparse : e'.parse text = e.parse text := parse_congr rfl
  have htwice := execute_of_ok (e := e') hn (hparse ▸ hsession) (hparse ▸ hchildren)
    (hparse ▸ hsecond)
  dsimp only
  rw [honce, htwice, isError_once]
  exact ⟨herror, hchanged, rfl⟩

/-- In every store that statements lead to, to write twice is to write once: when a write with a
path or a definition of rules was no error, it is none when it is executed again, and neither
changes the store nor says that it did. -/
theorem execute_again (format : DataFormat) (texts : List String) (text : String) :
    let e : Engine Unit := Engine.runTexts .literal { resolverState := (), format } texts
    let s := e.parse text
    let once := e.execute .literal text
    let twice := once.1.execute .literal text
    s.repetitions = 1 → (s.verb = .write ∧ s.parents ≠ [] ∨ s.verb = .enforce) →
      once.2.isError = false →
      twice.2.isError = false ∧ twice.1.persist = false ∧ twice.1.store = once.1.store := by
  intro e
  obtain ⟨h, hshape⟩ : e.store.Coherent ∧ e.store.RuleShape := ruleShape_storeAfter format texts
  clear_value e
  intro s once twice hn hverb hok
  dsimp only [s, once, twice] at hn hverb hok ⊢
  have hparsed : (Statement.parse text).repetitions = 1 := by
    rw [← hn, parse]
  exact execute_execute h hshape hparsed hverb hok

/-- Afterwards no parent passes the filter, and the value is there that has to be unique. -/
theorem execute_again_filtered :
    let e : Engine Unit := Engine.runTexts .literal { resolverState := () }
      ["write rule.b: unique=true", "write p: b=1"]
    let once := e.execute .literal "write Child.b=3 where b=1"
    let twice := once.1.execute .literal "write Child.b=3 where b=1"
    once.1.persist = true ∧ twice.2.isError = false ∧ twice.1.persist = false ∧
      twice.1.store = once.1.store := by
  intro e once twice
  let s := e.parse "write Child.b=3 where b=1"
  obtain ⟨hn, hverb⟩ : s.repetitions = 1 ∧ (s.verb = .write ∧ s.parents ≠ [] ∨ s.verb = .enforce) :=
    by decide +kernel
  obtain ⟨hpersist, hok⟩ : once.1.persist = true ∧ once.2.isError = false := by decide +kernel
  exact ⟨hpersist, execute_again .basic ["write rule.b: unique=true", "write p: b=1"]
    "write Child.b=3 where b=1" hn hverb hok⟩

end Engine

end TreeDatabase
