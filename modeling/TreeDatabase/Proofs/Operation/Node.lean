import TreeDatabase.Operation.Write
import TreeDatabase.Proofs.Store.Queries

/-!
# Writing one node

All that a write or a definition of rules does to the store is to create or overwrite children one
after the other. `Wrote` says what one such step changes; nothing else does.
-/

namespace TreeDatabase

namespace Store

/-- A child of a parent was created or overwritten. Without a value it keeps the one it has, and a
new one is blank. -/
inductive Wrote (s : Store) (parent : NodeId) (name : String) (value : Option String) (t : Store)
    (id : NodeId) : Prop
  | overwritten (child : s.child? parent name = some id)
      (nodes : ∀ j, t.get? j = (s.get? j).map fun n =>
        if j = id then { n with value := value.getD n.value } else n)
  | created (missing : s.child? parent name = none)
      (inserted : s.Inserted parent name (value.getD "") t id)

/-- A child that has the value already is written by changing nothing. -/
theorem wrote_of_same {s : Store} {parent id : NodeId} {name : String} {value : Option String}
    {n : Node} (hchild : s.child? parent name = some id) (hn : s.get? id = some n)
    (hsame : value.any (· != n.value) = false) : s.Wrote parent name value s id := by
  have hvalue : value.getD n.value = n.value := by
    cases value with
    | none => rfl
    | some v => simpa using hsame
  refine .overwritten hchild fun j => ?_
  by_cases hj : j = id
  · rw [hj, hn, Option.map_some, if_pos rfl, hvalue]
  · simp only [hj, ↓reduceIte, Option.map_id']

/-- Getting a child, or inserting it when it is missing, is a write; of a child that is there it
changes nothing. -/
theorem Coherent.insertOrGetChild_wrote {s : Store} (h : Coherent s) {parent : NodeId}
    {above : Node} (hp : s.get? parent = some above) {name : String}
    (hname : isNodeName name = true) (value : String) :
    ∃ t id created, s.insertOrGetChild parent name value = .ok (t, id, created) ∧ Coherent t ∧
      s.Wrote parent name (if created then some value else none) t id ∧
      (created = true ↔ s.child? parent name = none) ∧ (created = false → t = s) := by
  rcases h.insertOrGetChild_cases parent name value with
    ⟨id, hchild, _, hok⟩ | ⟨t, id, hok, hmissing, _, hi, ht⟩ | ⟨_, _, hno | hno⟩
  · refine ⟨s, id, false, hok, h, .overwritten hchild fun j => ?_, by simp [hchild], fun _ => rfl⟩
    cases s.get? j <;> simp
  · exact ⟨t, id, true, hok, ht, .created hmissing hi, by simp [hmissing], by simp⟩
  · rw [hname] at hno
    cases hno
  · rw [hp] at hno
    cases hno

namespace Wrote

variable {s t : Store} {parent id : NodeId} {name : String} {value : Option String}

/-- What becomes of a node that was there before. -/
theorem kept (hw : s.Wrote parent name value t id) {j : NodeId} {n : Node}
    (hn : s.get? j = some n) : ∃ m, t.get? j = some m ∧ m.name = n.name ∧ m.path = n.path ∧
      m.parent = n.parent ∧ n.children <+: m.children ∧ (j ≠ id → m.value = n.value) ∧
      (j = id → m.value = value.getD n.value) := by
  cases hw with
  | overwritten child nodes =>
    rw [nodes, hn, Option.map_some]
    split
    · next hj =>
      exact ⟨_, rfl, rfl, rfl, rfl, List.prefix_refl _, fun hne => absurd hj hne, fun _ => rfl⟩
    · next hj =>
      exact ⟨_, rfl, rfl, rfl, rfl, List.prefix_refl _, fun _ => rfl, fun he => absurd he hj⟩
  | created missing inserted =>
    refine ⟨_, inserted.kept hn, rfl, rfl, rfl, ?_, fun _ => rfl,
      fun he => absurd he (inserted.ne_of_live hn)⟩
    split
    · exact List.prefix_append _ _
    · exact List.prefix_refl _

/-- Where a node comes from that is not the one written. -/
theorem back (hw : s.Wrote parent name value t id) {j : NodeId} {m : Node}
    (hm : t.get? j = some m) (hj : j ≠ id) : ∃ n, s.get? j = some n ∧ m.name = n.name ∧
      m.path = n.path ∧ m.parent = n.parent ∧ m.value = n.value ∧
      (j ≠ parent → m.children = n.children) := by
  cases hw with
  | overwritten child nodes =>
    rw [nodes, Option.map_eq_some_iff] at hm
    obtain ⟨n, hn, rfl⟩ := hm
    rw [if_neg hj]
    exact ⟨n, hn, rfl, rfl, rfl, rfl, fun _ => rfl⟩
  | created missing inserted =>
    rcases inserted.live_cases hm with ⟨rfl, _⟩ | ⟨_, n, hn, rfl⟩
    · exact absurd rfl hj
    · exact ⟨n, hn, rfl, rfl, rfl, rfl, fun hne => if_neg hne⟩

/-- Nothing but the node that is written and its parent can differ. -/
theorem untouched (hw : s.Wrote parent name value t id) {j : NodeId} (hid : j ≠ id)
    (hparent : j ≠ parent) : t.get? j = s.get? j := by
  cases hw with
  | overwritten child nodes =>
    rw [nodes]
    simp [hid]
  | created missing inserted =>
    obtain ⟨_, above, _, ht⟩ := inserted
    rw [ht, if_neg hid, if_neg hparent]

/-- A node that is not written keeps all but its list of children, to which the node that is
written can be added at the end. -/
theorem grown (hw : s.Wrote parent name value t id) {j : NodeId} {n m : Node}
    (hn : s.get? j = some n) (hm : t.get? j = some m) (hj : j ≠ id) :
    m = { n with children := m.children } ∧ n.children <+: m.children ∧
      ∀ c ∈ m.children, c ∈ n.children ∨ j = parent ∧ c = id := by
  by_cases hparent : j = parent
  · subst hparent
    cases hw with
    | overwritten child nodes =>
      have hsame : m = n := by simpa [nodes, hn, hj] using hm.symm
      subst hsame
      exact ⟨rfl, List.prefix_refl _, fun c hc => .inl hc⟩
    | created missing inserted =>
      obtain ⟨_, above, hp, ht⟩ := inserted
      rw [hn] at hp
      cases hp
      rw [ht, if_neg hj, if_pos rfl] at hm
      cases hm
      refine ⟨rfl, List.prefix_append _ _, fun c hc => ?_⟩
      rcases List.mem_append.mp hc with hc | hc
      · exact .inl hc
      · exact .inr ⟨rfl, List.mem_singleton.mp hc⟩
  · rw [hw.untouched hj hparent, hn] at hm
    cases hm
    exact ⟨rfl, List.prefix_refl _, fun c hc => .inl hc⟩

theorem written (h : Coherent s) (hw : s.Wrote parent name value t id) :
    ∃ m, t.get? id = some m ∧ m.name = name ∧ m.parent = some parent ∧
      (∀ n, s.get? id = some n → m.path = n.path ∧ m.value = value.getD n.value) ∧
      (s.get? id = none → m.value = value.getD "" ∧ m.children = []) := by
  cases hw with
  | overwritten child nodes =>
    obtain ⟨n, hn, hpar, rfl⟩ := h.child?_iff_parent.mp child
    refine ⟨{ n with value := value.getD n.value }, ?_, rfl, hpar, ?_, ?_⟩
    · rw [nodes, hn, Option.map_some, if_pos rfl]
    · intro k hk
      rw [hn] at hk
      cases hk
      exact ⟨rfl, rfl⟩
    · intro hnone
      rw [hn] at hnone
      cases hnone
  | created missing inserted =>
    obtain ⟨hfresh, above, hp, ht⟩ := inserted
    refine ⟨_, by rw [ht, if_pos rfl], rfl, rfl, ?_, fun _ => ⟨rfl, rfl⟩⟩
    intro n hn
    rw [hfresh] at hn
    cases hn

/-- A node that was written is known before as the child of that name, or not at all. -/
theorem child?_eq (h : Coherent s) (hw : s.Wrote parent name value t id) :
    s.child? parent name = if (s.get? id).isSome then some id else none := by
  cases hw with
  | overwritten child nodes =>
    obtain ⟨n, hn, _⟩ := h.child?_iff_parent.mp child
    rw [child, hn, Option.isSome_some, if_pos rfl]
  | created missing inserted =>
    rw [missing, inserted.fresh]
    rfl

end Wrote

/-! ## Sequences of writes -/

/-- What was written where: the child of a name below a parent, and which node this was. -/
structure NodeWrite where
  parent : NodeId
  name : String
  value : Option String
  id : NodeId

/-- Writes lead from one store to another. -/
inductive Writes (s : Store) : List NodeWrite → Store → Prop
  | refl : Writes s [] s
  | snoc {ws : List NodeWrite} {w : NodeWrite} {t u : Store} (before : Writes s ws t)
      (coherent : Coherent t) (wrote : t.Wrote w.parent w.name w.value u w.id)
      (result : Coherent u) : Writes s (ws ++ [w]) u

namespace Writes

variable {s t : Store} {ws : List NodeWrite}

theorem single (h : Coherent s) {w : NodeWrite} (hw : s.Wrote w.parent w.name w.value t w.id)
    (ht : Coherent t) : s.Writes [w] t :=
  .snoc .refl h hw ht

theorem trans {u : Store} {ws' : List NodeWrite} (hw : s.Writes ws t) (hw' : t.Writes ws' u) :
    s.Writes (ws ++ ws') u := by
  induction hw' with
  | refl => rwa [List.append_nil]
  | snoc _ coherent wrote result ih =>
    rw [← List.append_assoc]
    exact .snoc ih coherent wrote result

theorem coherent (hw : s.Writes ws t) (h : Coherent s) : Coherent t := by
  cases hw with
  | refl => exact h
  | snoc _ _ _ result => exact result

/-- Writes only add nodes, each as the last child, and change values. -/
theorem kept (hw : s.Writes ws t) {j : NodeId} {n : Node} (hn : s.get? j = some n) :
    ∃ m, t.get? j = some m ∧ m.name = n.name ∧ m.path = n.path ∧ m.parent = n.parent ∧
      n.children <+: m.children := by
  induction hw with
  | refl => exact ⟨n, hn, rfl, rfl, rfl, List.prefix_refl _⟩
  | snoc _ _ wrote _ ih =>
    obtain ⟨m, hm, hname, hpath, hpar, hprefix⟩ := ih
    obtain ⟨k, hk, hname', hpath', hpar', hprefix', _⟩ := wrote.kept hm
    exact ⟨k, hk, hname'.trans hname, hpath'.trans hpath, hpar'.trans hpar,
      hprefix.trans hprefix'⟩

theorem eq_none (hw : s.Writes ws t) {j : NodeId} (hn : t.get? j = none) : s.get? j = none := by
  refine Option.eq_none_iff_forall_ne_some.mpr fun n hs => ?_
  obtain ⟨m, hm, _⟩ := hw.kept hs
  rw [hn] at hm
  cases hm

theorem child?_kept (hw : s.Writes ws t) (h : Coherent s) {parent id : NodeId} {name : String}
    (hc : s.child? parent name = some id) : t.child? parent name = some id := by
  obtain ⟨n, hn, hpar, rfl⟩ := h.child?_iff_parent.mp hc
  obtain ⟨m, hm, hname, _, hpar', _⟩ := hw.kept hn
  exact (hw.coherent h).child?_iff_parent.mpr ⟨m, hm, hpar'.trans hpar, hname⟩

theorem leads_kept (hw : s.Writes ws t) (h : Coherent s) {names : List String} {id : NodeId}
    (hl : s.Leads names id) : t.Leads names id := by
  obtain ⟨n, hn, _⟩ := h.path_of_leads hl
  obtain ⟨m, hm, _, hpath, _⟩ := hw.kept hn
  exact (h.leads_congr (hw.coherent h) hn hm hpath names).mpr hl

theorem child?_back (hw : s.Writes ws t) (h : Coherent s) {parent id : NodeId} {name : String}
    {n : Node} (hc : t.child? parent name = some id) (hn : s.get? id = some n) :
    s.child? parent name = some id := by
  obtain ⟨m, hm, hpar, hname⟩ := (hw.coherent h).child?_iff_parent.mp hc
  obtain ⟨m', hm', hname', _, hpar', _⟩ := hw.kept hn
  rw [hm] at hm'
  cases hm'
  exact h.child?_iff_parent.mpr ⟨n, hn, hpar'.symm.trans hpar, hname'.symm.trans hname⟩

/-- The nodes that were written are the children of these names afterwards. -/
theorem child?_of_mem (hw : s.Writes ws t) {w : NodeWrite} (hmem : w ∈ ws) :
    t.child? w.parent w.name = some w.id := by
  induction hw with
  | refl => cases hmem
  | snoc before coherent wrote result ih =>
    rcases List.mem_append.mp hmem with hmem | hmem
    · exact (single coherent wrote result).child?_kept coherent (ih hmem)
    · rw [List.mem_singleton.mp hmem]
      obtain ⟨m, hm, hname, hpar, _⟩ := wrote.written coherent
      exact result.child?_iff_parent.mpr ⟨m, hm, hpar, hname⟩

theorem isNodeName_of_mem (hw : s.Writes ws t) (h : Coherent s) {w : NodeWrite} (hmem : w ∈ ws) :
    Store.isNodeName w.name = true := by
  have ht := hw.coherent h
  obtain ⟨above, m, hp, hc, hm, hname⟩ := ht.child?_iff.mp (hw.child?_of_mem hmem)
  rw [← hname]
  exact ht.tree.name_of_mem_children hp hc hm

theorem untouched (hw : s.Writes ws t) {j : NodeId} (hj : ∀ w ∈ ws, j ≠ w.id ∧ j ≠ w.parent) :
    t.get? j = s.get? j := by
  induction hw with
  | refl => rfl
  | @snoc ws w t u _ _ wrote _ ih =>
    obtain ⟨hid, hparent⟩ := hj w (by simp)
    rw [wrote.untouched hid hparent]
    exact ih fun w' hw' => hj w' (List.mem_append_left _ hw')

/-- Of a node that is not written only the list of children can grow, by nodes that are written
below it. -/
theorem grown (hw : s.Writes ws t) {j : NodeId} {n m : Node} (hn : s.get? j = some n)
    (hm : t.get? j = some m) (hj : ∀ w ∈ ws, j ≠ w.id) :
    m = { n with children := m.children } ∧ n.children <+: m.children ∧
      ∀ c ∈ m.children, c ∈ n.children ∨ ∃ w ∈ ws, w.parent = j ∧ w.id = c := by
  induction hw generalizing m with
  | refl =>
    rw [hn] at hm
    cases hm
    exact ⟨rfl, List.prefix_refl _, fun c hc => .inl hc⟩
  | @snoc ws w t u before _ wrote _ ih =>
    obtain ⟨k, hk, _⟩ := before.kept hn
    obtain ⟨hsame, hprefix, hold⟩ := ih hk fun w' hw' => hj w' (List.mem_append_left _ hw')
    obtain ⟨hsame', hprefix', hnew⟩ := wrote.grown hk hm (hj w (by simp))
    refine ⟨by rw [hsame', hsame], hprefix.trans hprefix', fun c hc => ?_⟩
    rcases hnew c hc with hc | ⟨hparent, hid⟩
    · rcases hold c hc with hc | ⟨w', hw', hwritten⟩
      · exact .inl hc
      · exact .inr ⟨w', List.mem_append_left _ hw', hwritten⟩
    · exact .inr ⟨w, by simp, hparent.symm, hid.symm⟩

/-- Which node a write is about is known from the start, unless it is a new one. -/
theorem child?_eq (hw : s.Writes ws t) (h : Coherent s) {w : NodeWrite} (hmem : w ∈ ws) :
    s.child? w.parent w.name = if (s.get? w.id).isSome then some w.id else none := by
  have hc := hw.child?_of_mem hmem
  cases hn : s.get? w.id with
  | some n => exact hw.child?_back h hc hn
  | none =>
    cases hs : s.child? w.parent w.name with
    | none => rfl
    | some j =>
      rw [hw.child?_kept h hs] at hc
      cases hc
      obtain ⟨n, hn', _⟩ := h.child?_iff_parent.mp hs
      rw [hn] at hn'
      cases hn'

end Writes

/-- Every node of a store has its handle, its place and its children in another one, which may have
more children after them. -/
def Keeps (s t : Store) : Prop :=
  ∀ id n, s.get? id = some n → ∃ m, t.get? id = some m ∧ m.name = n.name ∧ m.path = n.path ∧
    m.parent = n.parent ∧ n.children <+: m.children

namespace Keeps

theorem refl (s : Store) : s.Keeps s := fun _ n hn => ⟨n, hn, rfl, rfl, rfl, List.prefix_refl _⟩

theorem trans {s t u : Store} (hst : s.Keeps t) (htu : t.Keeps u) : s.Keeps u := by
  intro id n hn
  obtain ⟨m, hm, hname, hpath, hparent, hchildren⟩ := hst id n hn
  obtain ⟨k, hk, hname', hpath', hparent', hchildren'⟩ := htu id m hm
  exact ⟨k, hk, hname'.trans hname, hpath'.trans hpath, hparent'.trans hparent,
    hchildren.trans hchildren'⟩

end Keeps

theorem Wrote.keeps {s t : Store} {parent id : NodeId} {name : String} {value : Option String}
    (hw : s.Wrote parent name value t id) : s.Keeps t := by
  intro j n hn
  obtain ⟨m, hm, hname, hpath, hparent, hchildren, _⟩ := hw.kept hn
  exact ⟨m, hm, hname, hpath, hparent, hchildren⟩

theorem Writes.keeps {s t : Store} {ws : List NodeWrite} (hw : s.Writes ws t) : s.Keeps t :=
  fun _ _ hn => hw.kept hn

/-- What a write of a node asks for, without the node that it turned out to be about. -/
def NodeWrite.request (w : NodeWrite) : NodeId × String × Option String :=
  (w.parent, w.name, w.value)

/-- A write as it can be foreseen in a store: without a value the child keeps the one it has there,
and a missing one is blank. -/
def foreseen (s : Store) : NodeId × String × Option String → PendingWrite
  | (parent, name, value) =>
    let existing := s.child? parent name
    ⟨name, value.getD (((existing.bind s.get?).map (·.value)).getD ""), existing⟩

def pending (s : Store) (w : NodeWrite) : PendingWrite := s.foreseen w.request

theorem name_pending (s : Store) (w : NodeWrite) : (s.pending w).name = w.name := rfl

/-- A node that is not written keeps its value. A node that is written has the value that one of
its writes was foreseen to give it. -/
theorem Writes.value {s t : Store} {ws : List NodeWrite} (hw : s.Writes ws t) (h : Coherent s)
    {j : NodeId} {m : Node} (hm : t.get? j = some m) :
    (j ∉ ws.map (·.id) ∧ ∃ n, s.get? j = some n ∧ m.name = n.name ∧ m.path = n.path ∧
      m.value = n.value) ∨
    ∃ w ∈ ws, w.id = j ∧ w.name = m.name ∧ (s.pending w).value = m.value := by
  induction hw generalizing j m with
  | refl => exact .inl ⟨by simp, m, hm, rfl, rfl, rfl⟩
  | @snoc ws w t u before coherent wrote result ih =>
    by_cases hj : j = w.id
    · right
      subst hj
      obtain ⟨m', hm', hname, _, hold, hnew⟩ := wrote.written coherent
      rw [hm] at hm'
      cases hm'
      have hchild := (before.snoc coherent wrote result).child?_eq h
        (List.mem_append_right _ (List.mem_singleton_self w))
      cases hv : w.value with
      | some v =>
        refine ⟨w, by simp, rfl, hname.symm, ?_⟩
        cases hn : t.get? w.id with
        | none => rw [(hnew hn).1, pending, NodeWrite.request, hv]; rfl
        | some n => rw [(hold n hn).2, pending, NodeWrite.request, hv]; rfl
      | none =>
        cases hn : t.get? w.id with
        | some k =>
          have hvalue : m.value = k.value := by rw [(hold k hn).2, hv]; rfl
          rcases ih hn with ⟨_, n, hn', hname', _, hvalue'⟩ | ⟨w', hw', hid, hname', hvalue'⟩
          · refine ⟨w, by simp, rfl, hname.symm, ?_⟩
            rw [hn', Option.isSome_some, if_pos rfl] at hchild
            rw [pending, NodeWrite.request, hv, hvalue, hvalue', foreseen, hchild]
            simp [hn']
          · obtain ⟨m', hm', hname'', _⟩ := wrote.kept hn
            rw [hm] at hm'
            cases hm'
            exact ⟨w', by simp [hw'], hid, hname'.trans hname''.symm, hvalue'.trans hvalue.symm⟩
        | none =>
          refine ⟨w, by simp, rfl, hname.symm, ?_⟩
          rw [before.eq_none hn] at hchild
          rw [(hnew hn).1, pending, NodeWrite.request, hv, foreseen, hchild]
          rfl
    · obtain ⟨k, hk, hname, hpath, _, hvalue, _⟩ := wrote.back hm hj
      rcases ih hk with ⟨hnot, n, hn, hname', hpath', hvalue'⟩ | ⟨w', hw', hid, hname', hvalue'⟩
      · have hnot' : j ∉ (ws ++ [w]).map (·.id) := by
          rw [List.map_append, List.mem_append, not_or]
          exact ⟨hnot, by simpa using hj⟩
        exact .inl ⟨hnot', n, hn, hname.trans hname', hpath.trans hpath', hvalue.trans hvalue'⟩
      · exact .inr ⟨w', by simp [hw'], hid, hname'.trans hname.symm, hvalue'.trans hvalue.symm⟩

end Store

/-! ## One step of a write -/

/-- A number of nodes has been written: each has its line and counts. -/
structure Progress.Counts (p q : Progress) (n : Nat) : Prop where
  lines : q.lines.length = p.lines.length + n
  count : q.count = p.count + n

namespace Statement

theorem writeNode_of_same {p : Progress} {parent id : NodeId} {name : String}
    {value : Option String} {t : Store} {created : Bool} {n : Node}
    (hok : p.store.insertOrGetChild parent name (value.getD "") = .ok (t, id, created))
    (hn : t.get? id = some n) (hsame : value.any (· != n.value) = false) :
    ∃ q, writeNode p parent name value = .ok (q, id) ∧ q.store = t ∧
      q.changed = (p.changed || created) ∧ p.Counts q 1 := by
  have hresult : writeNode p parent name value = .ok (
      { store := t
        lines := p.lines ++ [writtenLine created n.path value false]
        count := p.count + 1
        changed := p.changed || created || false }, id) := by
    rw [writeNode, hok]
    simp only [Store.orInterrupt, Except.mapError, bind, Except.bind, hn, Option.map_some,
      Option.getD_some, hsame]
    cases value <;> rfl
  exact ⟨_, hresult, rfl, Bool.or_false _, by simp, rfl⟩

theorem writeNode_of_differs {p : Progress} {parent id : NodeId} {name v : String} {t u : Store}
    {created : Bool} {n : Node}
    (hok : p.store.insertOrGetChild parent name v = .ok (t, id, created))
    (hn : t.get? id = some n) (hdiffers : v ≠ n.value) (hset : t.setValue id v = .ok u) :
    ∃ q, writeNode p parent name (some v) = .ok (q, id) ∧ q.store = u ∧ q.changed = true ∧
      p.Counts q 1 := by
  have hany : (some v).any (· != n.value) = true := by simpa using hdiffers
  have hresult : writeNode p parent name (some v) = .ok (
      { store := u
        lines := p.lines ++ [writtenLine created n.path (some v) true]
        count := p.count + 1
        changed := p.changed || created || true }, id) := by
    rw [writeNode, Option.getD_some, hok]
    simp only [Store.orInterrupt, Except.mapError, bind, Except.bind, hn, Option.map_some,
      Option.getD_some, hany, ↓reduceIte, hset]
    rfl
  exact ⟨_, hresult, rfl, Bool.or_true _, by simp, rfl⟩

/-- Writing a node below one that is there is not interrupted. It has changed the store unless it
says that it has not. -/
theorem writeNode_spec {p : Progress} (h : p.store.Coherent) {parent : NodeId} {above : Node}
    {name : String} (hp : p.store.get? parent = some above)
    (hname : Store.isNodeName name = true) (value : Option String) :
    ∃ q id, writeNode p parent name value = .ok (q, id) ∧ q.store.Coherent ∧
      p.store.Wrote parent name value q.store id ∧
      (q.changed = false → p.changed = false ∧ q.store = p.store) ∧ p.Counts q 1 := by
  rcases h.insertOrGetChild_cases parent name (value.getD "") with
    ⟨id, hchild, _, hok⟩ | ⟨t, id, hok, hmissing, _, hi, ht⟩ | ⟨_, _, hno | hno⟩
  · obtain ⟨_, n, _, _, hn, _⟩ := h.child?_iff.mp hchild
    cases hdiffers : value.any (· != n.value) with
    | false =>
      obtain ⟨q, hq, hstore, hchanged, hcounts⟩ := writeNode_of_same hok hn hdiffers
      refine ⟨q, id, hq, hstore ▸ h, ?_, ?_, hcounts⟩
      · rw [hstore]
        exact Store.wrote_of_same hchild hn hdiffers
      · intro hfalse
        rw [hchanged, Bool.or_false] at hfalse
        exact ⟨hfalse, hstore⟩
    | true =>
      cases value with
      | none => cases hdiffers
      | some v =>
        obtain ⟨u, hu⟩ : ∃ u, p.store.setValue id v = .ok u := ⟨_, by rw [Store.setValue, hn]⟩
        obtain ⟨q, hq, hstore, hchanged, hcounts⟩ :=
          writeNode_of_differs hok hn (by simpa using hdiffers) hu
        refine ⟨q, id, hq, hstore ▸ h.setValue hu, ?_, ?_, hcounts⟩
        · rw [hstore]
          exact .overwritten hchild (Store.get?_setValue hu)
        · intro hfalse
          rw [hchanged] at hfalse
          cases hfalse
  · obtain ⟨above', _, hnodes⟩ := hi.nodes
    have hnew := hnodes id
    rw [if_pos rfl] at hnew
    have hsame : value.any (· != value.getD "") = false := by
      cases value <;> simp
    obtain ⟨q, hq, hstore, hchanged, hcounts⟩ := writeNode_of_same hok hnew hsame
    refine ⟨q, id, hq, hstore ▸ ht, ?_, ?_, hcounts⟩
    · rw [hstore]
      exact .created hmissing hi
    · intro hfalse
      rw [hchanged, Bool.or_true] at hfalse
      cases hfalse
  · rw [hname] at hno
    cases hno
  · rw [hp] at hno
    cases hno

end Statement

end TreeDatabase
