import TreeDatabase.Proofs.Engine.Reachable
import TreeDatabase.Proofs.Operation.Acceptance

/-!
# Executed renamings

The execution of a renaming changes nothing but names, and the paths with them, in every store that
statements and other changes lead to.
-/

namespace TreeDatabase.Engine

variable {σ : Type} {r : Resolver σ} {e : Engine σ}

/-- The run of a renaming is the renaming of the statement as it is. -/
theorem run_rename {s : Statement} (hverb : s.verb = .rename) (hsites : s.sites = [])
    {t : Store} {response : Response} (hok : s.rename e.store = .ok (t, response)) :
    e.run r s = ({ e with store := t }, response) := by
  have hsession : sessionResponse? s = none := by simp [sessionResponse?, hverb]
  have hexecute : s.executeOn e.store = .ok (t, response) := by
    rw [Statement.executeOn, hverb]
    exact hok
  rw [run, hsession]
  dsimp only
  rw [Resolver.apply_of_sites_eq_nil hsites]
  dsimp only
  rw [if_neg (by simp [Statement.isError, hverb]), perform]
  dsimp only
  rw [hexecute]

/-- In every store that can be reached, a renaming is no error and leaves all nodes where they are,
with their values. Those that it hits have the new name then, unless a sibling has it, and have a
line each, which says so. -/
theorem run_renames (hr : Reachable r e) {text : String} (hverb : (e.parse text).verb = .rename) :
    let s := e.parse text
    let ran := e.run r s
    ran.2.isError = false ∧ s.RenamesHits e.store ran.1.store ran.2 := by
  intro s ran
  have ha : (e.parse text).Admitted :=
    (parse_cases e text).resolve_left (by simp [sessionResponse?, hverb])
  have hsites : (e.parse text).sites = [] := e.sites_parse text (.inl hverb)
  obtain ⟨t, response, hok, herror, hrenames⟩ := ha.rename_renamesHits hverb hr.coherent
  have hrun : ran = ({ e with store := t }, response) := run_rename hverb hsites hok
  rw [hrun]
  exact ⟨herror, hrenames⟩

/-- A node and one below it have the name. The lower one is refused, and its line has the new name
of the upper one already. -/
theorem run_renames_nested :
    let e : Engine Unit := runTexts .literal { resolverState := () } ["write a: a=1, b"]
    let s := e.parse "rename a=b"
    let ran := e.run .literal s
    s.RenamesHits e.store ran.1.store ran.2 ∧ s.hitTargets e.store = [⟨1⟩, ⟨2⟩] := by
  intro e s ran
  have hr : Reachable .literal e := (Reachable.start () .basic).runTexts _
  have hverb : s.verb = .rename := by decide +kernel
  have hcandidates : s.candidateParents e.store = [("", ⟨0⟩), ("a", ⟨1⟩)] :=
    Statement.candidateParents_of_pairwise (by decide +kernel) (by decide +kernel)
  refine ⟨(run_renames hr hverb).2, ?_⟩
  rw [Statement.hitTargets, Statement.allTargets, hcandidates]
  decide +kernel

end TreeDatabase.Engine
