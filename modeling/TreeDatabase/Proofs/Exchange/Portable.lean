import TreeDatabase.Proofs.Engine
import TreeDatabase.Proofs.Exchange.Records

/-!
# Stores that can be written as text

Names and values enter a store through statements, and no name or value of a statement spans lines.
So all records of a store that statements have made can stand in a flat file.
-/

namespace TreeDatabase

open Store

namespace Store

/-- No name and no value of a node spans lines. -/
def OneLine (s : Store) : Prop :=
  ∀ id n, s.get? id = some n → Text.OneLine n.name ∧ Text.OneLine n.value

namespace OneLine

variable {s t : Store}

theorem empty : Store.empty.OneLine := by
  intro id n hn
  obtain ⟨_, rfl⟩ := get?_empty hn
  exact ⟨Text.oneLine_blank, Text.oneLine_blank⟩

theorem of_leads (hs : s.OneLine) {names : List String} {id : NodeId} (hl : s.Leads names id) :
    ∀ name ∈ names, Text.OneLine name := by
  induction hl with
  | root => simp
  | child _ _ _ node ih =>
    intro name hname
    rcases List.mem_append.mp hname with hname | hname
    · exact ih name hname
    · rw [List.mem_singleton.mp hname]
      exact (hs _ _ node).1

/-- All records can stand in a flat file. -/
theorem portable (hs : s.OneLine) (h : Coherent s) : ∀ r ∈ s.toRecords, r.Portable := by
  intro r hr
  obtain ⟨names, id, n, hne, hl, hn, hpath, hvalue⟩ := h.mem_toRecords_iff_leads.mp hr
  refine ⟨⟨names, hne, fun name hname => ?_, hpath⟩, hvalue ▸ (hs id n hn).2⟩
  exact ⟨h.isNodeName_of_leads hl name hname, hs.of_leads hl name hname⟩

/-! ## What statements do -/

theorem of_prunes (hs : s.OneLine) (hp : s.Prunes t) : t.OneLine := by
  intro id m hm
  obtain ⟨n, hn, hname, _, hvalue, _⟩ := hp id m hm
  rw [hname, hvalue]
  exact hs id n hn

theorem of_relabels (hs : s.OneLine) {newName : String} (hline : Text.OneLine newName)
    (hr : Statement.Relabels newName s t) : t.OneLine := by
  intro id m hm
  obtain ⟨n, hn, hvalue, _, _, hname⟩ := hr id m hm
  rw [hvalue]
  refine ⟨?_, (hs id n hn).2⟩
  rcases hname with hname | hname
  · exact hname ▸ (hs id n hn).1
  · exact hname ▸ hline

/-- The value that a write is foreseen to give a node is its own or one that the store holds. -/
theorem pending (hs : s.OneLine) {w : NodeWrite}
    (hw : ∀ v, w.value = some v → Text.OneLine v) : Text.OneLine (s.pending w).value := by
  rw [Store.pending, NodeWrite.request, foreseen]
  dsimp only
  cases hv : w.value with
  | some v => exact hw v hv
  | none =>
    rw [Option.getD_none]
    cases hn : (s.child? w.parent w.name).bind s.get? with
    | none => exact Text.oneLine_blank
    | some n =>
      obtain ⟨id, _, hid⟩ := Option.bind_eq_some_iff.mp hn
      exact (hs id n hid).2

theorem of_writes (hs : s.OneLine) (h : Coherent s) {ws : List NodeWrite} (hw : s.Writes ws t)
    (hlines : ∀ w ∈ ws, Text.OneLine w.name ∧ ∀ v, w.value = some v → Text.OneLine v) :
    t.OneLine := by
  intro id m hm
  rcases hw.value h hm with ⟨_, n, hn, hname, _, hvalue⟩ | ⟨w, hmem, _, hname, hvalue⟩
  · rw [hname, hvalue]
    exact hs id n hn
  · rw [← hname, ← hvalue]
    exact ⟨(hlines w hmem).1, hs.pending (hlines w hmem).2⟩

end OneLine

end Store

namespace Statement

variable {s : Statement} {store t : Store}

theorem OneLine.newName (h : s.OneLine) : Text.OneLine s.newName := by
  rw [Statement.newName]
  cases hv : s.selectedValue with
  | none => exact Text.oneLine_blank
  | some v => exact h.selectedValue v hv

theorem OneLine.writtenNames (h : s.OneLine) (hs : store.OneLine) (parent : NodeId) :
    ∀ name ∈ s.writtenNames store parent, Text.OneLine name := by
  intro name hname
  rw [Statement.writtenNames] at hname
  split at hname
  · obtain ⟨n, hn, rfl⟩ := List.mem_map.mp hname
    obtain ⟨id, _, hid⟩ := List.mem_filterMap.mp hn
    exact (hs id n hid).1
  · rw [List.mem_singleton.mp hname]
    exact h.selectedName

theorem OneLine.givenValue (h : s.OneLine) {child : String × String} (hmem : child ∈ s.children) :
    ∀ v, Statement.givenValue child = some v → Text.OneLine v := by
  intro v hv
  rw [Statement.givenValue] at hv
  split at hv
  · cases hv
  · rw [← Option.some.inj hv]
    exact (h.children child hmem).2

theorem Requested.oneLine {parents : List NodeId} {ws : List NodeWrite}
    (hr : s.Requested store parents ws) (h : s.OneLine) (hs : store.OneLine) :
    ∀ w ∈ ws, Text.OneLine w.name ∧ ∀ v, w.value = some v → Text.OneLine v := by
  intro w hmem
  rcases hr w hmem with htarget | ⟨_, _, _, _, child, hchild, hname, hvalue⟩
  · refine ⟨h.writtenNames hs w.parent w.name htarget.name, fun v hv => ?_⟩
    exact h.selectedValue v (htarget.value.symm.trans hv)
  · rw [hname, hvalue]
    exact ⟨(h.children child hchild).1, h.givenValue hchild⟩

theorem InRuleset.oneLine {ruleset : String} (hline : Text.OneLine ruleset) {w : NodeWrite}
    (hw : InRuleset t ruleset w) : Text.OneLine w.name := by
  cases hw with
  | rules _ name => rw [name]; decide
  | ruleset _ name => rwa [name]
  | rule _ name =>
    obtain ⟨kind, hname⟩ := Vocabulary.exists_kind_of_isRuleName name
    rw [← hname]
    cases kind <;> decide

/-- Statements bring no line breaks into a store. -/
theorem Executes.oneLine (he : s.Executes store t) (h : store.Coherent) (hs : store.OneLine) :
    t.OneLine := by
  cases he with
  | unchanged => exact hs
  | written admitted _ writes requested _ =>
    exact hs.of_writes h writes (requested.oneLine admitted.oneLine hs)
  | deleted _ _ prunes => exact hs.of_prunes prunes
  | renamed admitted _ relabels => exact hs.of_relabels admitted.oneLine.newName relabels
  | enforced _ _ enforced =>
    exact hs.of_writes h enforced.writes fun w hmem =>
      ⟨(enforced.places w hmem).oneLine enforced.line, enforced.lines w hmem⟩

end Statement

end TreeDatabase
