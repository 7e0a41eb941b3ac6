import TreeDatabase.Proofs.Engine.Reachable
import TreeDatabase.Proofs.Engine.Writing
import TreeDatabase.Proofs.Operation.Reading

/-!
# Executed readings

The execution of a reading, keywords left as they are written, lists the subtrees of its targets in
every store that statements and other changes lead to.
-/

namespace TreeDatabase

namespace Statement

/-- Children that no keyword names have different names. -/
theorem DistinctChildren.nodup {s : Statement} (h : s.DistinctChildren) (hsites : s.sites = []) :
    s.childNames.Nodup := by
  rw [List.nodup_iff_pairwise_ne, List.pairwise_iff_getElem]
  intro i j hi hj hlt heq
  obtain ⟨site, hsite, _⟩ := h i j s.childNames[j] hlt
    (by rw [List.getElem?_eq_getElem hi, heq]) (List.getElem?_eq_getElem hj)
  rw [hsites] at hsite
  cases hsite

end Statement

namespace Engine

open Resolver

variable {e : Engine Unit}

theorem distinctChildren_parse {σ : Type} {e : Engine σ} {text : String}
    (hne : (e.parse text).verb ≠ .error) : (e.parse text).DistinctChildren := by
  rw [e.verb_parse] at hne
  have hdistinct := ((Statement.reading_parse hne).dispatchable hne).children
  rw [parse]
  generalize Statement.parse text = s at hdistinct ⊢
  exact hdistinct

/-- A statement that names two children by one name is an error. -/
theorem nodup_childNames_of_not_isError {text : String}
    (hsession : sessionResponse? (e.parse text) = none)
    (hok : (e.run literal (e.parse text)).2.isError = false) :
    (e.parse text).childNames.Nodup := by
  have hne : (e.parse text).verb ≠ .error := by
    intro herror
    simp [sessionResponse?, herror] at hsession
  have hdistinct : (e.parse text).DistinctChildren := distinctChildren_parse hne
  generalize e.parse text = s at hsession hok hne hdistinct ⊢
  by_cases hsites : s.sites = []
  · exact hdistinct.nodup hsites
  · by_contra hrepeats
    rw [run, hsession] at hok
    dsimp only at hok
    rw [apply_literal_of_repeats hsites (by simp [Statement.isError, hne]) hrepeats] at hok
    simp [Response.ofFaults, Response.message, Response.isError] at hok

theorem nodup_childNames_of_run {text : String} (hverb : (e.parse text).verb = .read)
    (hok : (e.run literal (e.parse text)).2.isError = false) :
    (e.parse text).childNames.Nodup :=
  nodup_childNames_of_not_isError (by simp [sessionResponse?, hverb]) hok

theorem run_read {s : Statement} (hverb : s.verb = .read) (hnames : s.childNames.Nodup) :
    e.run literal s = (e, s.read e.store) := by
  have hexecute : s.executeOn e.store = .ok (e.store, s.read e.store) := by
    simp only [Statement.executeOn, hverb]
  exact run_literal_of_ok (by simp [sessionResponse?, hverb]) hnames hexecute

/-- In every store that can be reached, a reading that is no error lists the subtrees of its
targets, and changes nothing. -/
theorem run_lists (hr : Reachable literal e) {text : String} (hverb : (e.parse text).verb = .read)
    (hok : (e.run literal (e.parse text)).2.isError = false) :
    let s := e.parse text
    let ran := e.run literal s
    ran.1.store = e.store ∧ s.ListsTargets e.store (s.listing e.store) ran.2 := by
  intro s ran
  have hnames := nodup_childNames_of_run hverb hok
  have hrun : ran = (e, (e.parse text).read e.store) := run_read hverb hnames
  rw [hrun]
  exact ⟨rfl, Statement.read_listsTargets hr.coherent hverb hnames⟩

/-- A node with children is left out when the filter accepts none of them and nothing below them,
also where a reading starts. Children that are named are listed in the order of the statement, and
a name that no child has is passed over. -/
theorem run_lists_pruned :
    let e : Engine Unit := runTexts .literal { resolverState := () }
      ["write a: b=1, c=2", "write a.c: k=7", "write a.d: x"]
    let whole := e.parse "read a where k"
    let named := e.parse "read a: d, c, x, b where k"
    ((e.run .literal whole).1.store = e.store ∧
        whole.ListsTargets e.store (whole.listing e.store) (e.run .literal whole).2 ∧
        (whole.starts e.store).flatMap (whole.listing e.store) = [⟨1⟩, ⟨2⟩, ⟨3⟩, ⟨4⟩]) ∧
      (e.run .literal named).1.store = e.store ∧
      named.ListsTargets e.store (named.listing e.store) (e.run .literal named).2 ∧
      named.starts e.store = [⟨5⟩, ⟨3⟩, ⟨2⟩] ∧
      (e.run .literal named).2.lines = ["a.c:2", "a.c.k:7", "a.b:1"] := by
  intro e whole named
  have hr : Reachable .literal e := (Reachable.start () .basic).runTexts _
  obtain ⟨hverb, hchildren⟩ : whole.verb = .read ∧ whole.childNames.Nodup := by decide +kernel
  obtain ⟨hverb', hchildren'⟩ : named.verb = .read ∧ named.childNames.Nodup := by decide +kernel
  have hran : e.run .literal named = (e, named.read e.store) := run_read hverb' hchildren'
  have hcandidates : whole.candidateParents e.store = [("", ⟨0⟩)] :=
    Statement.candidateParents_of_pairwise (by decide +kernel) (List.pairwise_singleton _ _)
  have hcandidates' : named.candidateParents e.store = [("", ⟨0⟩)] :=
    Statement.candidateParents_of_pairwise (by decide +kernel) (List.pairwise_singleton _ _)
  obtain ⟨hwhole, hlists⟩ := run_lists hr hverb (by rw [run_read hverb hchildren]; rfl)
  obtain ⟨hnamed, hlists'⟩ := run_lists hr hverb' (by rw [hran]; rfl)
  refine ⟨⟨hwhole, hlists, ?_⟩, hnamed, hlists', ?_⟩
  · rw [Statement.starts, Statement.allTargets, hcandidates]
    decide +kernel
  · rw [hran, Statement.starts, Statement.allTargets, Statement.read, hcandidates']
    decide +kernel

end Engine

end TreeDatabase
