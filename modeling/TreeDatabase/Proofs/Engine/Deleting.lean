import TreeDatabase.Proofs.Engine.Reachable
import TreeDatabase.Proofs.Operation.Removal

/-!
# Executed deletions

The execution of a deletion removes what lies below its targets, in every store that statements and
other changes lead to.
-/

namespace TreeDatabase.Engine

variable {σ : Type} {r : Resolver σ} {e : Engine σ}

/-- The run of a deletion is the deletion of the resolved statement. -/
theorem run_delete {s : Statement} (hverb : s.verb = .delete) (hchildren : s.children = []) :
    let resolved := (r.apply e.store s e.resolverState).1
    (e.run r s).1.store = (resolved.delete e.store).1 ∧
      (e.run r s).2 = (resolved.delete e.store).2 := by
  intro resolved
  have hresolved : resolved.verb = .delete :=
    (Resolver.verb_apply_of_children_eq_nil hchildren).trans hverb
  have hexecute : resolved.executeOn e.store = .ok (resolved.delete e.store) := by
    rw [Statement.executeOn, hresolved]
  have hsession : sessionResponse? s = none := by simp [sessionResponse?, hverb]
  rw [run, hsession]
  dsimp only
  rw [if_neg (by simp [Statement.isError, resolved, hresolved]), perform]
  dsimp only
  rw [hexecute]
  exact ⟨rfl, rfl⟩

/-- In every store that can be reached, a deletion removes the targets of its candidate parents that
pass its filter, with all that lies below them. It answers their paths, and leaves nothing that it
would hit; without a filter, a reading of its path finds nothing then. -/
theorem run_clears (hr : Reachable r e) {text : String} (hverb : (e.parse text).verb = .delete) :
    let s := (r.apply e.store (e.parse text) e.resolverState).1
    let ran := e.run r (e.parse text)
    ran.2.isError = false ∧ (∃ removed, s.Clears e.store removed ran.1.store ran.2) ∧
      (∀ id, ¬ s.Hits ran.1.store id) ∧
      (s.filter.isEmpty = true → ∀ reading : Statement, reading.verb = .read →
        reading.parents = s.parents → reading.selectedName = s.selectedName →
        (reading.read ran.1.store).count = 0) := by
  intro s ran
  have h := hr.coherent
  have ha : (e.parse text).Admitted :=
    (parse_cases e text).resolve_left (by simp [sessionResponse?, hverb])
  obtain ⟨_, hchildren, _⟩ := ha.deleteDemands hverb
  obtain ⟨hstore, hresponse⟩ := run_delete (r := r) (e := e) hverb hchildren
  have hdelete : s.verb = .delete :=
    (Resolver.verb_apply_of_children_eq_nil hchildren).trans hverb
  have hwrite : s.verb ≠ .write := by simp [hdelete]
  obtain ⟨removed, hclears⟩ := s.delete_clears h
  have ht := (s.delete_removes h).1
  rw [hstore, hresponse]
  refine ⟨rfl, ⟨removed, hclears⟩, hclears.not_hits h ht hwrite, ?_⟩
  intro hfilter reading hread hparents hname
  rw [hclears.read_eq h ht hwrite hfilter hread hparents hname]
  rfl

/-- A node of the name below another one of it is listed once, and its parent is stale then. A node
of the name that does not pass the filter stays. -/
theorem run_clears_nested :
    let e : Engine Unit := runTexts .literal { resolverState := () }
      ["write a: a, b", "write a.a: b=3", "write d: a"]
    let s := e.parse "delete a where b"
    let ran := e.run .literal s
    s.Clears e.store [⟨1⟩, ⟨2⟩, ⟨4⟩, ⟨3⟩] ran.1.store ran.2 ∧
      ran.2.lines = ["a", "a.a", "a.a.b", "a.b"] ∧
      ran.1.store.nodesBelowRoot.map (·.path) = ["d", "d.a"] ∧
      ∀ id, ¬ s.Hits ran.1.store id := by
  intro e s ran
  have hr : Reachable .literal e := (Reachable.start () .basic).runTexts _
  obtain ⟨hverb, hsites, hchildren⟩ : s.verb = .delete ∧ s.sites = [] ∧ s.children = [] := by
    decide +kernel
  have hresolved : (Resolver.literal.apply e.store s e.resolverState).1 = s := by
    rw [Resolver.apply_of_sites_eq_nil hsites]
  have heffect := run_clears hr hverb
  rw [hresolved] at heffect
  obtain ⟨_, ⟨removed, hclears⟩, hhits, _⟩ := heffect
  obtain ⟨hstore, hresponse⟩ := run_delete (r := .literal) (e := e) hverb hchildren
  rw [hresolved] at hstore hresponse
  have hcandidates : s.candidateParents e.store = [("", ⟨0⟩), ("a", ⟨1⟩), ("d", ⟨5⟩)] :=
    Statement.candidateParents_of_pairwise (by decide +kernel) (by decide +kernel)
  obtain ⟨hlines, hleft⟩ : ran.2.lines = ["a", "a.a", "a.a.b", "a.b"] ∧
      ran.1.store.nodesBelowRoot.map (·.path) = ["d", "d.a"] := by
    rw [hstore, hresponse, Statement.delete, hcandidates]
    decide +kernel
  obtain rfl : removed = [⟨1⟩, ⟨2⟩, ⟨4⟩, ⟨3⟩] := hclears.removed_eq hr.coherent
    (by rw [hlines]; decide +kernel)
  exact ⟨hclears, hlines, hleft, hhits⟩

end TreeDatabase.Engine
