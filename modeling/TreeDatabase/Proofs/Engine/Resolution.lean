import TreeDatabase.Proofs.Engine
import TreeDatabase.Proofs.Statement.Soundness

/-!
# Resolved statements

What resolving the keywords of a statement can make of it, whatever the resolver answers, and what
one execution of it does to the store.
-/

namespace TreeDatabase

theorem Statement.verb_setField (s : Statement) (field : Field) (text : String) :
    (s.setField field text).verb = s.verb := by
  cases field <;> rfl

/-- Filling a field leaves the names of all other children as they are. -/
theorem Statement.getElem?_childNames_setField (s : Statement) {field : Field} {i : Nat}
    (h : field ≠ .childName i) (text : String) :
    (s.setField field text).childNames[i]? = s.childNames[i]? := by
  cases field with
  | selectedName => rfl
  | selectedValue => rfl
  | childName j =>
    have hj : j ≠ i := fun heq => h (heq ▸ rfl)
    simp [setField, childNames, hj]
  | childValue j =>
    simp only [setField, childNames, List.getElem?_map, List.getElem?_modify]
    cases s.children[i]? with
    | none => rfl
    | some child => split <;> rfl

namespace Resolver

variable {σ : Type} {r : Resolver σ} {store : Store}

theorem apply_of_sites_eq_nil {s : Statement} (h : s.sites = []) (state : σ) :
    r.apply store s state = (s, state) := by
  rw [apply, if_pos (by simp [h])]

theorem mem_orderedSites {s : Statement} {site : KeywordSite} :
    site ∈ orderedSites s ↔ site ∈ s.sites := by
  rw [orderedSites, List.mem_mergeSort]

/-- What holds of a statement, and goes on to hold when a site of it is filled with an answer, holds
of the resolved statement, of which children of one name are a fault. -/
theorem apply_keeps (store : Store) (s : Statement) {motive : Statement → Prop} (hs : motive s)
    (hfill : ∀ t, ∀ site ∈ s.sites, ∀ state text, motive t →
      (r.resolve site.request store state).1 = some text → motive (t.setField site.field text))
    (state : σ) : ∃ filled, motive filled ∧ ((r.apply store s state).1 = filled ∨
      hasRepeats filled.childNames = true ∧
        (r.apply store s state).1 = filled.addFault .duplicateChildren) := by
  have hstep : ∀ (current : Statement × σ), ∀ site ∈ s.sites, motive current.1 →
      motive (r.fill store current site).1 := by
    intro current site hsite hcurrent
    rw [fill]
    split
    · next text _ hanswer =>
      exact hfill _ site hsite current.2 text hcurrent (by rw [hanswer])
    · exact hcurrent
  have hfold : ∀ (sites : List KeywordSite), sites ⊆ s.sites → ∀ current : Statement × σ,
      motive current.1 → motive (sites.foldl (r.fill store) current).1 := by
    intro sites
    induction sites with
    | nil => exact fun _ _ h => h
    | cons site sites ih =>
      intro hsub current hcurrent
      rw [List.foldl_cons]
      exact ih (fun _ h => hsub (List.mem_cons_of_mem _ h)) _
        (hstep current site (hsub List.mem_cons_self) hcurrent)
  have hfilled := hfold (orderedSites s) (fun _ h => mem_orderedSites.mp h) (s, state) hs
  rw [apply]
  split
  · exact ⟨s, hs, .inl rfl⟩
  · refine ⟨_, hfilled, ?_⟩
    dsimp only
    split
    · next hrepeats => exact .inr ⟨hrepeats, rfl⟩
    · exact .inl rfl

/-- Resolving does not change the verb, unless it makes a fault. -/
theorem verb_apply {s : Statement} {state : σ}
    (h : (r.apply store s state).1.isError = false) : (r.apply store s state).1.verb = s.verb := by
  obtain ⟨filled, hverb, heq⟩ := r.apply_keeps store s (motive := (·.verb = s.verb)) rfl
    (fun t site _ _ text ht _ => (t.verb_setField site.field text).trans ht) state
  rcases heq with heq | ⟨_, heq⟩
  · rw [heq, hverb]
  · rw [heq] at h
    simp at h

/-- A statement without children is resolved without a fault. -/
theorem verb_apply_of_children_eq_nil {s : Statement} {state : σ} (h : s.children = []) :
    (r.apply store s state).1.verb = s.verb := by
  obtain ⟨filled, ⟨hverb, hchildren⟩, heq⟩ := r.apply_keeps store s
    (motive := fun t => t.verb = s.verb ∧ t.children = []) ⟨rfl, h⟩
    (fun t site _ _ text ⟨hverb, hchildren⟩ _ => by
      refine ⟨(t.verb_setField site.field text).trans hverb, ?_⟩
      cases site.field <;> simp [Statement.setField, hchildren]) state
  rcases heq with heq | ⟨hrepeats, _⟩
  · rw [heq, hverb]
  · rw [Statement.childNames, hchildren] at hrepeats
    cases hrepeats

/-- A child that no keyword names keeps its name. -/
theorem getElem?_childNames_apply {s : Statement} {state : σ} {i : Nat}
    (hsites : ∀ site ∈ s.sites, site.field ≠ .childName i) :
    (r.apply store s state).1.childNames[i]? = s.childNames[i]? := by
  obtain ⟨filled, hfilled, heq⟩ := r.apply_keeps store s
    (motive := fun t => t.childNames[i]? = s.childNames[i]?) rfl
    (fun t site hsite _ text ht _ =>
      (t.getElem?_childNames_setField (hsites site hsite) text).trans ht) state
  rcases heq with heq | ⟨_, heq⟩
  · rw [heq, hfilled]
  · rw [heq]
    exact hfilled

end Resolver

namespace Engine

variable {σ : Type}

/-- An execution leaves the store as it is, or makes of it what the resolved statement does. -/
theorem run_cases (r : Resolver σ) (e : Engine σ) (s : Statement) :
    (e.run r s).1.store = e.store ∨
    ∃ resolved, (r.apply e.store s e.resolverState).1 = resolved ∧ resolved.verb = s.verb ∧
      sessionResponse? s = none ∧
      ((∃ t response, resolved.executeOn e.store = .ok (t, response) ∧
          (e.run r s).1.store = t ∧ (e.run r s).2 = response) ∨
        ∃ stop, resolved.executeOn e.store = .error stop ∧ (e.run r s).1.store = stop.store) := by
  rw [run]
  split
  · exact .inl rfl
  · next hsession =>
    dsimp only
    split
    · exact .inl rfl
    · next herror =>
      right
      refine ⟨_, rfl, r.verb_apply (by simpa using herror), hsession, ?_⟩
      rw [perform]
      dsimp only
      split
      · next t response hok => exact .inl ⟨t, response, hok, rfl, rfl⟩
      · next stop hstop => exact .inr ⟨stop, hstop, rfl⟩

end Engine

end TreeDatabase
