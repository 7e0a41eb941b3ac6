import TreeDatabase.Proofs.Engine.Idempotence
import TreeDatabase.Proofs.Exchange.Records
import TreeDatabase.Proofs.Statement.Quotation

/-!
# Writing quoted values

A write of a quoted value to an empty store makes a tree of one node. Of the quoted text the node
gets everything but the blanks at the ends.
-/

namespace TreeDatabase

namespace Store

variable {s t : Store}

/-! ## Empty stores -/

theorem indexed?_of_isEmpty (he : s.isEmpty = true) (name path : String) :
    s.indexed? name path = none := by
  rw [indexed?, Std.TreeMap.getElem?_of_isEmpty he]
  rfl

theorem child?_of_isEmpty (he : s.isEmpty = true) (parent : NodeId) (name : String) :
    s.child? parent name = none := by
  rw [child?]
  cases s.get? parent with
  | none => rfl
  | some n => exact indexed?_of_isEmpty he _ _

theorem findParentsOf_of_isEmpty (he : s.isEmpty = true) (name : String) (includeRules : Bool) :
    s.findParentsOf name includeRules = [] := by
  rw [findParentsOf, findByName, Std.TreeMap.getElem?_of_isEmpty he]
  rfl

theorem rulesFor_of_isEmpty (he : s.isEmpty = true) (name : String) : s.rulesFor name = [] := by
  have hpath : childPath Vocabulary.ruleSubtree name ≠ "" := by
    simp [childPath, Vocabulary.ruleSubtree]
  rw [rulesFor, lookup, if_neg hpath, indexed?_of_isEmpty he]

theorem writeViolations_of_isEmpty (he : s.isEmpty = true) (batch : List PendingWrite) :
    Ruleset.writeViolations s batch = [] := by
  have hnone : batch.flatMap (Ruleset.pendingViolations s batch) = [] := by
    refine List.flatMap_eq_nil_iff.mpr fun node _ => ?_
    rw [Ruleset.pendingViolations, rulesFor_of_isEmpty he]
    rfl
  rw [Ruleset.writeViolations, hnone]
  rfl

theorem Coherent.toRecords_of_inserted (h : Coherent s) (he : s.isEmpty = true) (ht : Coherent t)
    {name value : String} {id : NodeId} (hi : s.Inserted root name value t id) :
    t.toRecords = [⟨name, value⟩] := by
  refine ht.toRecords_eq_of_mem_iff (fun record => ?_) (List.pairwise_singleton _ _)
  obtain ⟨hfresh, r, hr, hnodes⟩ := hi
  have hid : id ≠ root := by
    rintro rfl
    rw [hr] at hfresh
    cases hfresh
  have hpath : childPath r.path name = name := by
    rw [(h.tree.path_eq_blank_iff hr).mpr rfl]
    rfl
  rw [mem_toRecords_iff, List.mem_singleton]
  constructor
  · rintro ⟨j, n, hj, hn, rfl⟩
    rw [hnodes, if_neg hj] at hn
    split at hn
    · cases hn
      rw [hpath]
    · exact absurd (h.reached_iff.mpr ⟨hj, hn⟩) (h.isEmpty_iff.mp he j n)
  · rintro rfl
    exact ⟨id, _, hid, by rw [hnodes, if_pos rfl], by rw [hpath]⟩

end Store

namespace Statement

variable {s : Statement} {store : Store}

theorem write_of_isEmpty (h : store.Coherent) (he : store.isEmpty = true)
    (hverb : s.verb = .write) (hparents : s.parents = []) (hchildren : s.children = [])
    (hfilter : s.filter.isEmpty = true) (hname : Store.isNodeName s.selectedName = true)
    (hall : s.selectsAll = false) :
    ∃ t response, s.write store = .ok (t, response) ∧ response.isError = false ∧
      t.toRecords = [⟨s.selectedName, s.selectedValue.getD ""⟩] := by
  obtain ⟨r, hr, _⟩ := h.tree.root
  have hcandidates : s.candidateParents store = [("", Store.root)] := by
    have hnodes : s.parentNodes store = [("", Store.root)] := by
      rw [parentNodes, if_neg (by simp [hparents]), hall, hverb]
      simp [Store.findParentsOf_of_isEmpty he]
    rw [candidateParents, hnodes]
    simp only [hverb, Store.passes, hfilter, Bool.true_or, if_true, List.filter_cons,
      List.filter_nil, List.mergeSort_singleton]
    rfl
  have hwritten : ∀ t parent, s.writtenNames t parent = [s.selectedName] := by
    intro t parent
    refine if_neg fun hw => ?_
    simp [selectsAll, hw] at hall
  obtain ⟨q, id, hq, hcoherent, hwrote, _⟩ :=
    writeNode_spec (p := { store }) h hr hname s.selectedValue
  have hbelow : s.writeBelow { store } Store.root = .ok q := by
    rw [writeBelow, hwritten, List.foldlM_cons, writeTarget, hq, hchildren]
    rfl
  refine ⟨q.store, .counted .write q.lines q.count q.changed, ?_, rfl, ?_⟩
  · rw [write, if_neg (by simp [Store.writeViolations_of_isEmpty he]), hcandidates]
    simp only [List.map_cons, List.map_nil, List.foldlM_cons, hbelow]
    rfl
  · cases hwrote with
    | overwritten child _ =>
      rw [Store.child?_of_isEmpty he] at child
      cases child
    | created _ inserted => exact h.toRecords_of_inserted he hcoherent inserted

end Statement

namespace Engine

open Resolver

/-- To write a quoted value to an empty store makes one node. It has the value but for the blanks
at the ends of it. -/
theorem execute_assignment (e : Engine Unit) (h : e.store.Coherent) (he : e.store.isEmpty = true)
    {n v : String} {q : Char} (hn : Statement.WritableWord n) (hv : Statement.Quotable q v) :
    let ran := e.execute literal (Statement.assignment n q v)
    ran.2.isError = false ∧ ran.1.store.toRecords = [⟨n, Text.trim v⟩] ∧
      (ran.1.store.toRecords = [⟨n, v⟩] ↔
        (∀ c ∈ v.toList.head?, Text.isBlank c = false) ∧
          ∀ c ∈ v.toList.getLast?, Text.isBlank c = false) := by
  have hparsed := Statement.parse_assignment hn hv
  have hname : Store.isNodeName n = true :=
    Statement.isNodeName_of_isValidName (Phrase.isValidName_of_plainChars hn.chars) hn.ne_blank
  have hall : (n == Vocabulary.wildcard || n == Vocabulary.root) = false := by
    rw [Bool.or_eq_false_iff, beq_eq_false_iff_ne, beq_eq_false_iff_ne]
    exact ⟨hn.ne_of_isKeyword (by decide), hn.ne_of_isKeyword (by decide)⟩
  let s : Statement :=
    { text := Statement.assignment n q v, verb := .write, selectedName := n,
      selectedValue := some (Text.trim v), format := e.format }
  have hparse : e.parse (Statement.assignment n q v) = s := by rw [parse, hparsed]
  obtain ⟨t, response, hok, herror, hrecords⟩ :=
    Statement.write_of_isEmpty (s := s) h he rfl rfl rfl rfl hname hall
  have hexecuted : e.execute literal (Statement.assignment n q v) =
      ({ e with store := t, persist := response.changed }, ⟨s, [⟨response, 1⟩]⟩) := by
    rw [← hparse]
    refine execute_of_ok (by rw [hparsed]) ?_ ?_ ?_ <;> rw [hparse]
    · rfl
    · exact List.nodup_nil
    · exact hok
  rw [hexecuted]
  refine ⟨(isError_once s response).trans herror, hrecords, ?_⟩
  rw [← Text.trim_eq_self_iff]
  change t.toRecords = _ ↔ _
  rw [hrecords]
  simp [s]

/-- The blanks within the quotes stay, and so does all that would divide the text in front of
them. -/
theorem execute_assignment_structural :
    let e : Engine Unit := runTexts literal { resolverState := () } ["write b: c=1", "delete b"]
    let v := "\\ where 'x': a.b = 12:30:00,  (c Times 2 -- \t;"
    let ran := e.execute literal (Statement.assignment "Times-2" '"' v)
    e.store.isEmpty = true ∧ Statement.WritableWord "Times-2" ∧ Statement.Quotable '"' v ∧
      ran.2.isError = false ∧ ran.1.store.toRecords = [⟨"Times-2", v⟩] := by
  intro e v
  have he : e.store.isEmpty = true := by decide +kernel
  have hn : Statement.WritableWord "Times-2" := by decide
  have hv : Statement.Quotable '"' v := by decide
  have h : e.store.Coherent := (ruleShape_storeAfter .basic ["write b: c=1", "delete b"]).1
  obtain ⟨hok, _, hrecords⟩ := execute_assignment e h he hn hv
  exact ⟨he, hn, hv, hok, hrecords.mpr (Text.trim_eq_self_iff.mp (by decide))⟩

/-- The blanks at the ends are lost, although they are quoted. -/
theorem execute_assignment_blank_ends :
    let ran := ({ resolverState := () } : Engine Unit).execute literal
      (Statement.assignment "a" '"' " x ")
    Statement.WritableWord "a" ∧ Statement.Quotable '"' " x " ∧ ran.2.isError = false ∧
      ran.1.store.valueAt ["a"] = some "x" :=
  ⟨by decide, by decide, by decide +kernel, by decide +kernel⟩

end Engine

end TreeDatabase
