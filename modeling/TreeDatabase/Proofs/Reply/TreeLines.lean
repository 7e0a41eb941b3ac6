import TreeDatabase.Proofs.Engine.Keywords
import TreeDatabase.Reply.Render

/-!
# Trees of what was read

A tree is made of the lines of a reading alone. Names hold neither dots nor colons, so the first
colon of a line ends its path, the last dot of the path begins the name, and the dots count the
names above it. A value may hold both.
-/

namespace TreeDatabase

open Store

namespace Path

/-- There is one dot less than there are names. -/
theorem count_dot_ofNames {names : List String} (hne : names ≠ [])
    (h : ∀ name ∈ names, isNodeName name = true) :
    (ofNames names).toList.count '.' + 1 = names.length := by
  have hdot : ∀ name ∈ names, name.toList.count '.' = 0 := fun name hname =>
    List.count_eq_zero.mpr (isNodeName_iff.mp (h name hname)).2.1
  clear h
  rw [toList_ofNames]
  induction names with
  | nil => exact absurd rfl hne
  | cons name names ih =>
    obtain ⟨hname, hrest⟩ := List.forall_mem_cons.mp hdot
    cases names with
    | nil => simp [hname]
    | cons next names =>
      have hcount := ih (List.cons_ne_nil _ _) hrest
      rw [List.map_cons] at hcount
      rw [List.map_cons, List.map_cons, List.intercalate_cons_cons, List.count_append,
        List.count_append, hname, List.length_cons, ← hcount]
      simp
      omega

end Path

namespace Store

/-- How deep a node lies: how many names lead to it from the root. -/
def LiesAt (s : Store) (depth : Nat) (id : NodeId) : Prop :=
  ∃ names, s.Leads names id ∧ names.length = depth

theorem Coherent.liesAt_unique {s : Store} (h : Coherent s) {depth other : Nat} {id : NodeId}
    (hd : s.LiesAt depth id) (ho : s.LiesAt other id) : depth = other := by
  obtain ⟨names, hl, rfl⟩ := hd
  obtain ⟨names', hl', rfl⟩ := ho
  rw [h.leads_unique hl hl']

end Store

namespace TreeLines

variable {store : Store} {id : NodeId} {n : Node}

/-! ## The line of a node -/

/-- How a tree shows a node that lies so many levels below the highest. -/
def nodeLine (level : Nat) (n : Node) : String :=
  String.ofList (List.replicate (4 * min 8 level) ' ') ++ n.name ++ "-> " ++ n.value

/-- The first colon of a line ends the path. -/
theorem parts_readLine (h : store.Coherent) (hn : store.get? id = some n) :
    parts (Statement.readLine n) = (n.path.toList, n.value.toList) := by
  have hcolon : ∀ c ∈ n.path.toList, (c == ':') = false := by
    obtain ⟨names, hl⟩ := h.exists_leads hn
    intro c hc
    rw [h.path_eq_of_leads hl hn] at hc
    rw [beq_eq_false_iff_ne]
    rintro rfl
    obtain ⟨name, hname, hmem⟩ := (Path.mem_ofNames ':' hc).resolve_left (by decide)
    exact (isNodeName_iff.mp (h.isNodeName_of_leads hl name hname)).2.2 hmem
  have hline : (Statement.readLine n).toList = n.path.toList ++ ':' :: n.value.toList := by
    simp [Statement.readLine]
  rw [parts, hline, Text.cutAt_append_sep _ hcolon (by simp)]
  rfl

theorem renderLine_readLine (h : store.Coherent) (hn : store.get? id = some n)
    (hid : id ≠ root) (level : Nat) :
    renderLine level (Statement.readLine n) = nodeLine level n := by
  have hname : Text.afterLast (· == '.') n.path.toList = n.name.toList := by
    have hlast := congrArg String.toList (h.tree.last_path hn hid)
    rwa [Path.last, String.toList_ofList] at hlast
  apply String.toList_inj.mp
  rw [renderLine, parts_readLine h hn, hname, nodeLine, blanksPerLevel, maxLevel,
    Nat.min_comm level 8]
  simp

/-- A node lies one level deeper than its path has dots. -/
theorem liesAt_depth (h : store.Coherent) (hn : store.get? id = some n) (hid : id ≠ root) :
    store.LiesAt (depth (Statement.readLine n) + 1) id := by
  obtain ⟨names, hl⟩ := h.exists_leads hn
  have hne : names ≠ [] := by
    rintro rfl
    exact hid hl.eq_root
  refine ⟨names, hl, ?_⟩
  rw [depth, parts_readLine h hn, h.path_eq_of_leads hl hn]
  exact (Path.count_dot_ofNames hne (h.isNodeName_of_leads hl)).symm

/-! ## The lines of a reading -/

/-- What a tree shows of the nodes of lines, one line for each in their order. -/
structure ShowsNodes (store : Store) (ids : List NodeId) (lines : List String) : Prop where
  /-- The blanks in front of a name tell how much deeper its node lies than the highest one. -/
  shown : ∃ least, (ids ≠ [] → ∃ id ∈ ids, store.LiesAt least id) ∧
    (∀ id ∈ ids, ∀ depth, store.LiesAt depth id → least ≤ depth) ∧
    List.Forall₂ (fun id line => ∃ n depth, store.get? id = some n ∧ store.LiesAt depth id ∧
      line = nodeLine (depth - least) n) ids (render lines)
  /-- No line lies above the highest, so that depths can be subtracted. -/
  highest : ∀ line ∈ lines, ((lines.map depth).min?).getD 0 ≤ depth line

/-- A tree shows nodes other than the root as they are. -/
theorem showsNodes (h : store.Coherent) {entries : List (NodeId × Node)}
    (hentries : ∀ entry ∈ entries, store.get? entry.1 = some entry.2 ∧ entry.1 ≠ root) :
    ShowsNodes store (entries.map Prod.fst)
      (entries.map fun entry => Statement.readLine entry.2) := by
  let lines := entries.map fun entry => Statement.readLine entry.2
  let base := ((lines.map depth).min?).getD 0
  have hhighest : ∀ line ∈ lines, base ≤ depth line := fun line hline =>
    List.min?_getD_le_of_mem (List.mem_map_of_mem hline)
  have hdepth : ∀ entry ∈ entries,
      store.LiesAt (depth (Statement.readLine entry.2) + 1) entry.1 := fun entry hentry =>
    liesAt_depth h (hentries entry hentry).1 (hentries entry hentry).2
  refine ⟨⟨base + 1, ?_, ?_, ?_⟩, hhighest⟩
  · intro hne
    have hdepths : lines.map depth ≠ [] := by simpa [lines] using hne
    obtain ⟨least, hleast⟩ := Option.isSome_iff_exists.mp (List.isSome_min?_of_ne_nil hdepths)
    obtain ⟨line, hline, hatline⟩ := List.mem_map.mp (List.min?_eq_some_iff.mp hleast).1
    obtain ⟨entry, hentry, rfl⟩ := List.mem_map.mp hline
    refine ⟨entry.1, List.mem_map_of_mem hentry, ?_⟩
    have hbase : base = depth (Statement.readLine entry.2) := by
      rw [hatline]
      exact congrArg (·.getD 0) hleast
    rw [hbase]
    exact hdepth entry hentry
  · intro id hid d hd
    obtain ⟨entry, hentry, rfl⟩ := List.mem_map.mp hid
    rw [h.liesAt_unique hd (hdepth entry hentry)]
    exact Nat.succ_le_succ (hhighest _ (List.mem_map_of_mem hentry))
  · rw [render, List.map_map, List.forall₂_map_left_iff, List.forall₂_map_right_iff,
      List.forall₂_same]
    intro entry hentry
    obtain ⟨hn, hid⟩ := hentries entry hentry
    refine ⟨entry.2, _, hn, hdepth entry hentry, ?_⟩
    rw [Nat.add_sub_add_right]
    exact renderLine_readLine h hn hid _

end TreeLines

namespace Statement

variable {s : Statement} {store : Store}

/-- The root is not read: a reading starts in children of other nodes. -/
theorem ne_root_of_mem_visit (h : store.Coherent) {start : NodeId} (hstart : start ∈ s.starts store)
    {entry : NodeId × Node} (hentry : entry ∈ store.visit (s.lists store) start) :
    entry.1 ≠ root := by
  obtain ⟨n, hn⟩ := live_of_mem_starts h hstart
  have hb := h.below_of_mem_visit hn (List.mem_map_of_mem hentry)
  intro hroot
  rw [hroot] at hb
  obtain ⟨p, m, hm, hmem⟩ := exists_parent_of_mem_starts h hstart
  exact h.root_not_below_child hm hmem hb

theorem showsNodes_read (h : store.Coherent) :
    TreeLines.ShowsNodes store ((s.starts store).flatMap (s.listing store))
      (s.read store).lines := by
  have hids : (s.starts store).flatMap (s.listing store) =
      ((s.starts store).flatMap (store.visit (s.lists store))).map Prod.fst := by
    rw [List.map_flatMap]
    rfl
  rw [hids, s.read_eq_counted h]
  refine TreeLines.showsNodes h fun entry hentry => ?_
  obtain ⟨start, hstart, hentry⟩ := List.mem_flatMap.mp hentry
  obtain ⟨n, hn⟩ := live_of_mem_starts h hstart
  exact ⟨h.live_of_mem_visit hn hentry, ne_root_of_mem_visit h hstart hentry⟩

end Statement

namespace Engine

variable {σ : Type} {r : Resolver σ} {e : Engine σ}

/-- A statement about the store that is no error is carried out. -/
theorem exists_executed?_of_not_isError {s : Statement} (hsession : sessionResponse? s = none)
    (hok : (e.run r s).2.isError = false) : ∃ resolved, e.executed? r s = some resolved := by
  rw [run, hsession] at hok
  by_cases herror : (r.apply e.store s e.resolverState).1.isError = true
  · dsimp only at hok
    rw [if_pos herror] at hok
    cases hok
  · exact ⟨_, executed?_eq_some_iff.mpr ⟨hsession, rfl, by simpa using herror⟩⟩

/-- In every store that can be reached, the tree of a reading that is no error shows the nodes that
were read, as a statement lists them whose keywords have been answered. -/
theorem run_showsNodes (hr : Reachable r e) {text : String} (hverb : (e.parse text).verb = .read)
    (hok : (e.run r (e.parse text)).2.isError = false) :
    ∃ s, e.executed? r (e.parse text) = some s ∧
      let response := (e.run r (e.parse text)).2
      s.ListsTargets e.store (s.listing e.store) response ∧
        TreeLines.ShowsNodes e.store ((s.starts e.store).flatMap (s.listing e.store))
          response.lines := by
  have hsession : sessionResponse? (e.parse text) = none := by simp [sessionResponse?, hverb]
  obtain ⟨s, hs⟩ := exists_executed?_of_not_isError hsession hok
  obtain ⟨_, happly, haccepted⟩ := executed?_eq_some_iff.mp hs
  have hread : s.verb = .read := by
    rw [← hverb, ← happly]
    exact Resolver.verb_apply (happly ▸ haccepted)
  have hrun := run_eq_of_executed? r e (e.parse text)
  rw [hs] at hrun
  have hresponse : (e.run r (e.parse text)).2 = s.read e.store := by
    rw [hrun, perform]
    simp only [Statement.executeOn, hread]
  refine ⟨s, hs, ?_⟩
  rw [hresponse]
  exact ⟨Statement.read_listsTargets hr.coherent hread (nodup_childNames_of_executed? e e hs),
    Statement.showsNodes_read hr.coherent⟩

/-- Nodes of two depths, one of them with a value that holds a dot and a colon. -/
theorem run_showsNodes_depths :
    let e : Engine Unit := runTexts .literal { resolverState := () }
      ["write a: b = 'x.y: z'", "write c: d", "write c.d: b = 1"]
    let s := e.parse "read b"
    let response := (e.run .literal s).2
    s.verb = .read ∧ response.isError = false ∧
      s.ListsTargets e.store (s.listing e.store) response ∧
      TreeLines.ShowsNodes e.store ((s.starts e.store).flatMap (s.listing e.store))
        response.lines ∧
      TreeLines.render response.lines = ["b-> x.y: z", "    b-> 1"] := by
  intro e s response
  have hr : Reachable .literal e := (Reachable.start () .basic).runTexts _
  obtain ⟨hverb, hchildren, hs⟩ :
      s.verb = .read ∧ s.childNames.Nodup ∧ e.executed? .literal s = some s := by decide +kernel
  have hresponse : response = s.read e.store := congrArg Prod.snd (run_read hverb hchildren)
  have hok : response.isError = false := by rw [hresponse]; rfl
  obtain ⟨resolved, hresolved, hlists, hshows⟩ := run_showsNodes hr hverb hok
  obtain rfl : resolved = s := Option.some.inj (hresolved.symm.trans hs)
  refine ⟨hverb, hok, hlists, hshows, ?_⟩
  have hcandidates : s.candidateParents e.store = [("a", ⟨1⟩), ("c.d", ⟨4⟩)] :=
    Statement.candidateParents_of_pairwise (by decide +kernel) (by decide +kernel)
  rw [hresponse, Statement.read, hcandidates]
  decide +kernel

end Engine

end TreeDatabase
