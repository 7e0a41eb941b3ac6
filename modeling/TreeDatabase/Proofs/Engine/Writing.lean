import TreeDatabase.Proofs.Operation.Effect
import TreeDatabase.Proofs.Ruleset.Confinement

/-!
# Executed writes

The execution of a write with a path, keywords left as they are written, has the effect that was
planned in every store that statements lead to.
-/

namespace TreeDatabase

namespace Resolver

theorem hasRepeats_eq_false_iff {names : List String} : hasRepeats names = false ↔ names.Nodup := by
  induction names with
  | nil => simp [hasRepeats]
  | cons name names ih => simp [hasRepeats, ih]

/-- A statement whose children have different names stays as it is when its keywords do. -/
theorem apply_literal_of_nodup {s : Statement} (h : s.childNames.Nodup) (store : Store)
    (state : Unit) : literal.apply store s state = (s, state) := by
  rw [apply]
  split
  · rfl
  · rw [foldl_fill_literal]
    dsimp only
    rw [hasRepeats_eq_false_iff.mpr h]
    rfl

theorem apply_literal_of_repeats {s : Statement} (hsites : s.sites ≠ []) (hok : s.isError = false)
    (h : ¬ s.childNames.Nodup) (store : Store) (state : Unit) :
    literal.apply store s state = (s.addFault .duplicateChildren, state) := by
  have hrepeats : hasRepeats s.childNames = true := by
    rwa [← hasRepeats_eq_false_iff, Bool.not_eq_false] at h
  rw [apply, if_neg (by simp [hok, hsites]), foldl_fill_literal]
  dsimp only
  rw [if_pos hrepeats]

end Resolver

namespace Engine

open Resolver

/-- With keywords left as they are, a statement does what its execution as it is does. -/
theorem run_literal_of_ok {e : Engine Unit} {s : Statement} (hsession : sessionResponse? s = none)
    (hchildren : s.childNames.Nodup) {t : Store} {response : Response}
    (hok : s.executeOn e.store = .ok (t, response)) :
    e.run literal s = ({ e with store := t }, response) := by
  have herror : s.isError = false := by
    rw [← Bool.not_eq_true]
    intro herror
    rw [Statement.isError, decide_eq_true_iff] at herror
    simp [sessionResponse?, herror] at hsession
  rw [run, hsession]
  dsimp only
  rw [apply_literal_of_nodup hchildren, herror, if_neg (by simp), perform]
  dsimp only
  rw [hok]

theorem admitted_of_write {σ : Type} {e : Engine σ} {text : String}
    (hverb : (e.parse text).verb = .write) : (e.parse text).Admitted :=
  (parse_cases e text).resolve_left (by simp [sessionResponse?, hverb])

/-- In every store that statements lead to, a write with a path whose plan breaks no rule has the
effect that was planned, and its answer counts and lists the nodes of the plan. -/
theorem run_carriesOut (format : DataFormat) (texts : List String) (text : String) :
    let e : Engine Unit := Engine.runTexts .literal { resolverState := (), format } texts
    let s := e.parse text
    let plan := s.planWrites e.store ((s.candidateParents e.store).map Prod.snd)
    s.verb = .write → s.parents ≠ [] → s.childNames.Nodup →
      Ruleset.writeViolations e.store plan = [] →
      s.CarriesOut e.store (e.run .literal s).1.store plan ∧
        (e.run .literal s).2.isError = false ∧ (e.run .literal s).2.count = plan.length ∧
        (e.run .literal s).2.lines.length = plan.length := by
  intro e s plan hverb hparents hchildren hnone
  obtain ⟨h, hshape⟩ : e.store.Coherent ∧ e.store.RuleShape := ruleShape_storeAfter format texts
  obtain ⟨t, response, hok, heffect, hresponse, hcount, hlines⟩ :=
    (admitted_of_write hverb).write_carriesOut hverb hparents hchildren h hshape rfl hnone
  have hexecute : s.executeOn e.store = .ok (t, response) := by
    rw [Statement.executeOn, hverb]
    exact hok
  have hrun : e.run .literal s = ({ e with store := t }, response) :=
    run_literal_of_ok (by simp [sessionResponse?, hverb]) hchildren hexecute
  rw [hrun]
  exact ⟨heffect, by simp [Response.isError, hresponse], hcount, hlines⟩

theorem run_carriesOut_wildcard :
    let e : Engine Unit := Engine.runTexts .literal { resolverState := () }
      ["write p: b=old", "write q: k"]
    let s := e.parse "write Child.b=new: c=7 where b, k"
    let plan := s.planWrites e.store ((s.candidateParents e.store).map Prod.snd)
    plan.length = 4 ∧ s.CarriesOut e.store (e.run .literal s).1.store plan ∧
      (e.run .literal s).2.isError = false ∧ (e.run .literal s).2.count = plan.length ∧
      (e.run .literal s).2.lines.length = plan.length := by
  intro e s plan
  have hcandidates : s.candidateParents e.store = [("p", ⟨1⟩), ("q", ⟨3⟩)] :=
    Statement.candidateParents_of_pairwise (by decide +kernel) (by decide +kernel)
  have hplan : plan.length = 4 ∧ Ruleset.writeViolations e.store plan = [] := by
    dsimp only [plan]
    rw [hcandidates]
    decide +kernel
  obtain ⟨hverb, hpath, hchildren⟩ :
      s.verb = .write ∧ s.parents ≠ [] ∧ s.childNames.Nodup := by decide +kernel
  exact ⟨hplan.1, run_carriesOut .basic ["write p: b=old", "write q: k"]
    "write Child.b=new: c=7 where b, k" hverb hpath hchildren hplan.2⟩

end Engine

end TreeDatabase
