import TreeDatabase.Proofs.Engine.Reading
import TreeDatabase.Proofs.Operation.Relabeling

/-!
# Targets in reachable stores

What a statement with a path is about are the nodes that the store finds for the path, in every
store that can be reached. It is not so for readings whose selected name is the word for the root
behind other names: the store finds nothing for such a path, but the reading finds what it would
find for the wildcard.
-/

namespace TreeDatabase.Engine

open Store

variable {σ : Type} {r : Resolver σ} {e : Engine σ}

/-- The targets of a reading, a deletion or a renaming with a path are the nodes of the path. Only a
reading can have the word for the root as its selected name. Its path has no nodes then, but its
targets are those of the wildcard. Further in front the word leaves no targets, unless it comes
first. -/
theorem targets_of_path (hr : Reachable r e) {s : Statement}
    (hverb : s.verb = .read ∨ s.verb = .delete ∨ s.verb = .rename) (hparents : s.parents ≠ []) :
    let nodesOf := fun segments => (e.store.resolvePath segments s.includesRules).map Prod.snd
    (s.selectedName ≠ Vocabulary.root →
      ∀ id, id ∈ s.allTargets e.store ↔ id ∈ nodesOf s.hierarchy) ∧
    (s.selectedName = Vocabulary.root → nodesOf s.hierarchy = [] ∧
      ∀ id, id ∈ s.allTargets e.store ↔ id ∈ nodesOf (s.parents ++ [Vocabulary.wildcard])) ∧
    (s.Admitted → s.selectedName = Vocabulary.root → s.verb = .read) ∧
    (Vocabulary.root ∈ s.parents.tail → s.allTargets e.store = []) := by
  intro nodesOf
  have hwrite : s.verb ≠ .write := by
    rintro hwrite
    simp [hwrite] at hverb
  have htargets : ∀ id, id ∈ s.allTargets e.store ↔
      id ∈ nodesOf (s.parents ++ [s.selectedSegment]) := fun id =>
    Statement.mem_allTargets_iff_resolvePath hr.coherent hwrite hparents
  have htail : ∀ name, (s.parents ++ [name]).tail = s.parents.tail ++ [name] := fun name =>
    List.tail_append_of_ne_nil hparents
  refine ⟨fun hname id => ?_, fun hname => ⟨?_, fun id => ?_⟩, fun ha hname => ?_, fun hroot => ?_⟩
  · rw [htargets, Statement.selectedSegment, if_neg hname]
    rfl
  · have hlast : Vocabulary.root ∈ s.hierarchy.tail := by
      rw [Statement.hierarchy, htail, hname]
      exact List.mem_append_right _ List.mem_cons_self
    simp only [nodesOf, resolvePath_eq_nil_of_mem_tail hlast, List.map_nil]
  · rw [htargets, Statement.selectedSegment, if_pos hname]
  · refine hverb.resolve_right fun hremoval => ?_
    obtain ⟨_, _, _, hroot⟩ := ha.removable hremoval
    exact hroot hname
  · have hlast : Vocabulary.root ∈ (s.parents ++ [s.selectedSegment]).tail := by
      rw [htail]
      exact List.mem_append_left _ hroot
    rw [List.eq_nil_iff_forall_not_mem]
    intro id hid
    rw [htargets] at hid
    simp only [nodesOf, resolvePath_eq_nil_of_mem_tail hlast, List.map_nil] at hid
    cases hid

/-- The path of the reading has no nodes, but the reading lists the children of `a`. -/
theorem targets_of_path_root_last :
    let e : Engine Unit := runTexts .literal { resolverState := () } ["write a: b=1"]
    let s := e.parse "read a.Root"
    (e.store.resolvePath s.hierarchy s.includesRules).map Prod.snd = [] ∧
      ⟨2⟩ ∈ s.allTargets e.store := by
  intro e s
  have hr : Reachable .literal e := (Reachable.start () .basic).runTexts _
  obtain ⟨hverb, hparents, hname, hchild⟩ : s.verb = .read ∧ s.parents ≠ [] ∧
      s.selectedName = Vocabulary.root ∧
      ⟨2⟩ ∈ (e.store.resolvePath (s.parents ++ [Vocabulary.wildcard]) s.includesRules).map
        Prod.snd := by decide +kernel
  obtain ⟨_, hroot, _⟩ := targets_of_path hr (.inl hverb) hparents
  obtain ⟨hnone, htargets⟩ := hroot hname
  exact ⟨hnone, (htargets ⟨2⟩).mpr hchild⟩

/-- The store finds no node for the path, which has the word for the root behind another name. The
reading lists one. -/
theorem reads_without_nodes :
    let e : Engine Unit := runTexts .literal { resolverState := () } ["write a: b=1"]
    let s := e.parse "read a.Root"
    (s.verb = .read ∧ s.parents ≠ [] ∧ Vocabulary.root ∈ s.hierarchy.tail) ∧
      e.store.resolvePath s.hierarchy s.includesRules = [] ∧ s.allTargets e.store = [⟨2⟩] ∧
      (e.run .literal s).2.isError = false ∧ (e.run .literal s).2.lines = ["a.b:1"] := by
  intro e s
  have hcandidates : s.candidateParents e.store = [("a", ⟨1⟩)] :=
    Statement.candidateParents_of_pairwise (by decide +kernel) (List.pairwise_singleton _ _)
  obtain ⟨hpath, hchildren, hnone⟩ :
      (s.verb = .read ∧ s.parents ≠ [] ∧ Vocabulary.root ∈ s.hierarchy.tail) ∧
        s.childNames.Nodup ∧ e.store.resolvePath s.hierarchy s.includesRules = [] := by
    decide +kernel
  have hrun : e.run .literal s = (e, s.read e.store) := run_read hpath.1 hchildren
  refine ⟨hpath, hnone, ?_, ?_⟩
  · rw [Statement.allTargets, hcandidates]
    decide +kernel
  · rw [hrun, Statement.read, hcandidates]
    decide +kernel

end TreeDatabase.Engine
