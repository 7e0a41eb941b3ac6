import Mathlib.Data.List.Induction
import TreeDatabase.Proofs.Operation.Node
import TreeDatabase.Proofs.Statement.Tokens
import TreeDatabase.Proofs.Store.Outcome

/-!
# Merging records

A merge is described by the values at the ends of names, in whatever slots the nodes stand. A record
gives the node at its path the value that it has, and creates the nodes on the way that are missing.
A merge takes every record that can be loaded. One that cannot interrupts it: what the records
before it have written stays, and so do the nodes in front of the name that is refused.
-/

namespace TreeDatabase

/-- Of what has a property in a list, one comes first. -/
theorem exists_first {α : Type} {p : α → Prop} {as : List α} {a : α} (ha : a ∈ as) (hp : p a) :
    ∃ before first after, as = before ++ first :: after ∧ p first ∧ ∀ b ∈ before, ¬ p b := by
  classical
  obtain ⟨first, hfirst⟩ := Option.isSome_iff_exists.mp
    (List.find?_isSome (p := fun a => decide (p a)) |>.mpr ⟨a, ha, decide_eq_true hp⟩)
  obtain ⟨hfirst, before, after, heq, hbefore⟩ := List.find?_eq_some_iff_append.mp hfirst
  exact ⟨before, first, after, heq, of_decide_eq_true hfirst,
    fun b hb => by simpa using hbefore b hb⟩

/-! ## Records that can be loaded -/

/-- A record that a store takes: no name of its path is blank or holds a colon, and its value is on
one line. -/
structure Record.Loadable (r : Record) : Prop where
  segments : "" ∉ Path.segments r.path
  colon : ':' ∉ r.path.toList
  value : Text.OneLine r.value

/-- Why a record is refused, and the names on the way that are taken before it is. -/
inductive Record.Refused (r : Record) : List String → StoreFault → Prop
  | path (blank : "" ∈ Path.segments r.path) : Refused r [] (.invalidPath r.path)
  | value (segments : "" ∉ Path.segments r.path) (lines : ¬ Text.OneLine r.value) :
      Refused r [] (.multilineValue r.path)
  | name {way : List String} {name : String} {rest : List String}
      (blank : "" ∉ Path.segments r.path) (value : Text.OneLine r.value)
      (segments : Path.segments r.path = way ++ name :: rest) (taken : ∀ n ∈ way, ':' ∉ n.toList)
      (colon : ':' ∈ name.toList) : Refused r way (.invalidNodeName name)

theorem Path.mem_of_mem_segments {path name : String} (h : name ∈ Path.segments path) {c : Char}
    (hc : c ∈ name.toList) : c ∈ path.toList := by
  obtain ⟨p, hp, rfl⟩ := List.mem_map.mp h
  exact Text.mem_of_mem_pieces hp (by simpa using hc)

namespace Record

variable {r : Record}

theorem isNodeName_of_mem_segments (hblank : "" ∉ Path.segments r.path) {name : String}
    (hname : name ∈ Path.segments r.path) (hcolon : ':' ∉ name.toList) :
    Store.isNodeName name = true := by
  refine Store.isNodeName_iff.mpr ⟨?_, Path.not_dot_of_mem_segments hname, hcolon⟩
  rintro rfl
  exact hblank hname

theorem Loadable.isNodeName (h : r.Loadable) :
    ∀ name ∈ Path.segments r.path, Store.isNodeName name = true := by
  intro name hname
  exact isNodeName_of_mem_segments h.segments hname fun hc =>
    h.colon (Path.mem_of_mem_segments hname hc)

theorem loadable_of_names {names : List String} (hne : names ≠ [])
    (hnames : ∀ name ∈ names, Store.isNodeName name = true) (hpath : r.path = Path.ofNames names)
    (hvalue : Text.OneLine r.value) : r.Loadable where
  segments := by
    rw [hpath, Path.segments_ofNames hne hnames]
    exact fun hmem => Store.ne_blank_of_isNodeName (hnames "" hmem) rfl
  colon := by
    rw [hpath]
    intro hc
    obtain ⟨name, hname, hmem⟩ := (Path.mem_ofNames ':' hc).resolve_left (by decide)
    exact (Store.isNodeName_iff.mp (hnames name hname)).2.2 hmem
  value := hvalue

theorem recordFault?_eq_none (hblank : "" ∉ Path.segments r.path) (hvalue : Text.OneLine r.value) :
    Store.recordFault? r = none := by
  obtain ⟨hn, hr⟩ := Text.oneLine_iff.mp hvalue
  simp [Store.recordFault?, hblank, hn, hr]

/-- A record that cannot be loaded is refused for its path, its value or the first of its names that
holds a colon. -/
theorem exists_refused (h : ¬ r.Loadable) : ∃ way fault, r.Refused way fault := by
  by_cases hblank : "" ∈ Path.segments r.path
  · exact ⟨_, _, .path hblank⟩
  · by_cases hvalue : Text.OneLine r.value
    · have hcolon : ':' ∈ (Path.ofNames (Path.segments r.path)).toList := by
        rw [Path.ofNames_segments]
        by_contra hcolon
        exact h ⟨hblank, hcolon, hvalue⟩
      obtain ⟨name, hname, hmem⟩ := (Path.mem_ofNames ':' hcolon).resolve_left (by decide)
      obtain ⟨way, bad, rest, hsplit, hbad, htaken⟩ :=
        exists_first (p := fun n => ':' ∈ n.toList) hname hmem
      exact ⟨_, _, .name hblank hvalue hsplit htaken hbad⟩
    · exact ⟨_, _, .value hblank hvalue⟩

end Record

namespace Store

variable {s t : Store}

/-! ## Values at the ends of names -/

/-- The value of the node that names lead to from the root. -/
def valueAt (s : Store) (names : List String) : Option String :=
  ((names.foldlM s.child? root).bind s.get?).map (·.value)

theorem Coherent.foldlM_child?_iff (h : Coherent s) {names : List String} {id : NodeId} :
    names.foldlM s.child? root = some id ↔ s.Leads names id := by
  induction names using List.reverseRecOn generalizing id with
  | nil =>
    constructor
    · intro hid
      cases hid
      exact .root
    · intro hl
      rw [hl.eq_root]
      rfl
  | append_singleton above name ih =>
    rw [List.foldlM_append, h.leads_child_iff]
    simp only [List.foldlM_cons, List.foldlM_nil, bind_pure, Option.bind_eq_bind,
      Option.bind_eq_some_iff, ih]

theorem Coherent.valueAt_eq_some_iff (h : Coherent s) {names : List String} {value : String} :
    s.valueAt names = some value ↔
      ∃ id n, s.Leads names id ∧ s.get? id = some n ∧ n.value = value := by
  simp only [valueAt, Option.map_eq_some_iff, Option.bind_eq_some_iff, h.foldlM_child?_iff]
  constructor
  · rintro ⟨n, ⟨id, hl, hn⟩, hvalue⟩
    exact ⟨id, n, hl, hn, hvalue⟩
  · rintro ⟨id, n, hl, hn, hvalue⟩
    exact ⟨n, ⟨id, hl, hn⟩, hvalue⟩

theorem Coherent.valueAt_of_leads (h : Coherent s) {names : List String} {id : NodeId} {n : Node}
    (hl : s.Leads names id) (hn : s.get? id = some n) : s.valueAt names = some n.value :=
  h.valueAt_eq_some_iff.mpr ⟨id, n, hl, hn, rfl⟩

theorem Coherent.valueAt_child (h : Coherent s) {above : List String} {parent : NodeId}
    (hl : s.Leads above parent) (name : String) :
    s.valueAt (above ++ [name]) = ((s.child? parent name).bind s.get?).map (·.value) := by
  rw [valueAt, List.foldlM_append, h.foldlM_child?_iff.mpr hl]
  simp

theorem Coherent.isSome_valueAt_iff (h : Coherent s) {names : List String} :
    (s.valueAt names).isSome = true ↔ ∃ id, s.Leads names id := by
  simp only [Option.isSome_iff_exists, h.valueAt_eq_some_iff]
  constructor
  · rintro ⟨_, id, _, hl, _⟩
    exact ⟨id, hl⟩
  · rintro ⟨id, hl⟩
    obtain ⟨n, hn, _⟩ := h.path_of_leads hl
    exact ⟨n.value, id, n, hl, hn, rfl⟩

/-- What leads to a node has a node at each of its names. -/
theorem Coherent.isSome_valueAt (h : Coherent s) {names way : List String} {id : NodeId}
    (hl : s.Leads way id) (hbelow : names <+: way) : (s.valueAt names).isSome = true := by
  obtain ⟨below, rfl⟩ := hbelow
  obtain ⟨top, ht, _⟩ := hl.split
  exact h.isSome_valueAt_iff.mpr ⟨top, ht⟩

section

variable {parent id : NodeId} {name : String} {value : Option String} {above : List String}

theorem Wrote.leads (h : Coherent s) (hw : s.Wrote parent name value t id) (ht : Coherent t)
    (hl : s.Leads above parent) : t.Leads (above ++ [name]) id := by
  obtain ⟨p, hp, _⟩ := h.path_of_leads hl
  obtain ⟨q, hq, _, hpath, _⟩ := hw.kept hp
  obtain ⟨m, hm, hname, hparent, _⟩ := hw.written h
  exact ht.leads_child_iff.mpr ⟨parent, (h.leads_congr ht hp hq hpath above).mpr hl,
    ht.child?_iff_parent.mpr ⟨m, hm, hparent, hname⟩⟩

theorem Wrote.valueAt_self (h : Coherent s) (hw : s.Wrote parent name value t id)
    (ht : Coherent t) (hl : s.Leads above parent) : t.valueAt (above ++ [name]) =
      some (value.getD ((s.valueAt (above ++ [name])).getD "")) := by
  obtain ⟨m, hm, _, _, hold, hnew⟩ := hw.written h
  rw [ht.valueAt_of_leads (hw.leads h ht hl) hm]
  have hchild := hw.child?_eq h
  cases hn : s.get? id with
  | some n =>
    rw [hn, Option.isSome_some, if_pos rfl] at hchild
    rw [h.valueAt_of_leads (h.leads_child_iff.mpr ⟨parent, hl, hchild⟩) hn, (hold n hn).2]
    rfl
  | none =>
    rw [hn] at hchild
    rw [h.valueAt_child hl, hchild, (hnew hn).1]
    rfl

theorem Wrote.valueAt_of_ne (h : Coherent s) (hw : s.Wrote parent name value t id)
    (ht : Coherent t) (hl : s.Leads above parent) {names : List String}
    (hnames : names ≠ above ++ [name]) : t.valueAt names = s.valueAt names := by
  have hother : ∀ {j}, t.Leads names j → j ≠ id := by
    rintro j hj rfl
    exact hnames (ht.leads_unique hj (hw.leads h ht hl))
  apply Option.ext
  intro v
  rw [ht.valueAt_eq_some_iff, h.valueAt_eq_some_iff]
  constructor
  · rintro ⟨j, k, hj, hk, rfl⟩
    obtain ⟨n, hn, _, hpath, _, hvalue, _⟩ := hw.back hk (hother hj)
    exact ⟨j, n, (h.leads_congr ht hn hk hpath names).mp hj, hn, hvalue.symm⟩
  · rintro ⟨j, n, hj, hn, rfl⟩
    obtain ⟨k, hk, _, hpath, _, _, hvalue, _⟩ := hw.kept hn
    have hjt := (h.leads_congr ht hn hk hpath names).mpr hj
    exact ⟨j, k, hjt, hk, hvalue (hother hjt)⟩

/-- A write gives the node at the end of the names its value and leaves all others as they are. -/
theorem Wrote.valueAt (h : Coherent s) (hw : s.Wrote parent name value t id) (ht : Coherent t)
    (hl : s.Leads above parent) : t.valueAt = Function.update s.valueAt (above ++ [name])
      (some (value.getD ((s.valueAt (above ++ [name])).getD ""))) := by
  funext names
  by_cases hnames : names = above ++ [name]
  · rw [hnames, Function.update_self, hw.valueAt_self h ht hl]
  · rw [Function.update_of_ne hnames, hw.valueAt_of_ne h ht hl hnames]

end

/-! ## One record -/

/-- The values after the nodes on a way have been created where they were missing. -/
def withWay (values : List String → Option String) (way : List String) :
    List String → Option String :=
  fun names => if names <+: way then some ((values names).getD "") else values names

/-- The values after a record has been written. -/
def withRecord (values : List String → Option String) (r : Record) :
    List String → Option String :=
  Function.update (withWay values (Path.segments r.path)) (Path.segments r.path) (some r.value)

theorem withWay_append (values : List String → Option String) (way rest : List String) :
    withWay (withWay values way) (way ++ rest) = withWay values (way ++ rest) := by
  funext names
  by_cases hnames : names <+: way
  · simp [withWay, hnames, hnames.trans (List.prefix_append way rest)]
  · simp [withWay, hnames]

/-- After records have been written, a path that some of them have holds the value of the last one.
The nodes on their ways are there, blank if they are new, and all else is as it was. -/
theorem foldl_withRecord (values : List String → Option String) (rs : List Record)
    (names : List String) : rs.foldl withRecord values names =
      match rs.reverse.find? fun r => decide (Path.segments r.path = names) with
      | some r => some r.value
      | none =>
        if ∃ r ∈ rs, names <+: Path.segments r.path then some ((values names).getD "")
        else values names := by
  induction rs using List.reverseRecOn with
  | nil => simp
  | append_singleton rs r ih =>
    rw [List.foldl_append, List.foldl_cons, List.foldl_nil, List.reverse_append,
      List.reverse_singleton, List.singleton_append, List.find?_cons, withRecord]
    by_cases hend : Path.segments r.path = names
    · simp [hend]
    · rw [Function.update_of_ne (Ne.symm hend), withWay, ih, decide_eq_false hend]
      cases rs.reverse.find? fun r => decide (Path.segments r.path = names) with
      | some q => simp
      | none =>
        by_cases hway : names <+: Path.segments r.path
        · have hany : ∃ q ∈ rs ++ [r], names <+: Path.segments q.path := ⟨r, by simp, hway⟩
          dsimp only
          rw [if_pos hway, if_pos hany]
          split <;> rfl
        · simp [hway, or_and_right, exists_or]

/-- After records have been written, there is what was there and what is on the way to one. -/
theorem isSome_foldl_withRecord_iff (values : List String → Option String) {rs : List Record}
    {names : List String} : (rs.foldl withRecord values names).isSome = true ↔
      (values names).isSome = true ∨ ∃ r ∈ rs, names <+: Path.segments r.path := by
  rw [foldl_withRecord]
  split
  · next r hfound =>
    have hmem := List.mem_reverse.mp (List.mem_of_find?_eq_some hfound)
    have hend : Path.segments r.path = names := by simpa using List.find?_some hfound
    simp only [Option.isSome_some, true_iff]
    exact .inr ⟨r, hmem, hend ▸ List.prefix_refl _⟩
  · split
    · next hway => simp [hway]
    · next hway => simp [hway]

/-- A way that is there is left as it is. -/
theorem Coherent.withWay_of_leads (h : Coherent s) {way : List String} {id : NodeId}
    (hl : s.Leads way id) : withWay s.valueAt way = s.valueAt := by
  funext names
  rw [withWay]
  split
  · next hway =>
    obtain ⟨v, hv⟩ := Option.isSome_iff_exists.mp (h.isSome_valueAt hl hway)
    rw [hv, Option.getD_some]
  · rfl

/-- One step of a way creates the node that it leads to, unless it is there. -/
theorem Coherent.insertOrGetChild_way (h : Coherent s) {above : List String} {id : NodeId}
    (hl : s.Leads above id) {name : String} (hname : isNodeName name = true) :
    ∃ t c created, s.insertOrGetChild id name "" = .ok (t, c, created) ∧ Coherent t ∧
      t.Leads (above ++ [name]) c ∧ t.valueAt = withWay s.valueAt (above ++ [name]) := by
  obtain ⟨n, hn, _⟩ := h.path_of_leads hl
  obtain ⟨t, c, created, hok, ht, hw, hcreated, hsame⟩ := h.insertOrGetChild_wrote hn hname ""
  have hvalue : (if created then some "" else none).getD ((s.valueAt (above ++ [name])).getD "") =
      (s.valueAt (above ++ [name])).getD "" := by
    cases created with
    | false => rfl
    | true => simp [h.valueAt_child hl, hcreated.mp rfl]
  refine ⟨t, c, created, hok, ht, hw.leads h ht hl, ?_⟩
  rw [hw.valueAt h ht hl, hvalue]
  funext names
  by_cases hend : names = above ++ [name]
  · rw [hend, Function.update_self, withWay, if_pos (List.prefix_refl _)]
  · -- the other names of the way lead to nodes that were there
    rw [Function.update_of_ne hend, withWay]
    split
    · next hway =>
      have habove := (List.prefix_concat_iff.mp hway).resolve_left hend
      rw [← h.withWay_of_leads hl, withWay, if_pos habove, Option.getD_some]
    · rfl

/-- A way of names that nodes can have is built to its end. -/
theorem Coherent.insertPath_way (h : Coherent s) {above : List String} {id : NodeId}
    (hl : s.Leads above id) {names : List String} (hnames : ∀ n ∈ names, isNodeName n = true) :
    ∃ t c, s.insertPath id names = .ok (t, c) ∧ Coherent t ∧ t.Leads (above ++ names) c ∧
      t.valueAt = withWay s.valueAt (above ++ names) := by
  induction names generalizing s above id with
  | nil =>
    rw [List.append_nil]
    exact ⟨s, id, rfl, h, hl, (h.withWay_of_leads hl).symm⟩
  | cons name names ih =>
    obtain ⟨t, c, created, hok, ht, hlt, hvalues⟩ :=
      h.insertOrGetChild_way hl (hnames name List.mem_cons_self)
    obtain ⟨u, d, hrest, hu, hlu, hvalues'⟩ :=
      ih ht hlt fun n hn => hnames n (List.mem_cons_of_mem _ hn)
    rw [List.append_cons]
    refine ⟨u, d, ?_, hu, hlu, ?_⟩
    · rw [Store.insertPath, hok]
      exact hrest
    · rw [hvalues', hvalues, withWay_append]

theorem insertPath_append (s : Store) (id : NodeId) (names more : List String) :
    s.insertPath id (names ++ more) =
      s.insertPath id names >>= fun r => r.1.insertPath r.2 more := by
  induction names generalizing s id with
  | nil => rfl
  | cons name names ih =>
    rw [List.cons_append, insertPath, insertPath, bind_assoc]
    congr
    funext r
    exact ih r.1 r.2.1

/-- A record that can be loaded is written. -/
theorem Coherent.mergeRecord_of_loadable (h : Coherent s) {r : Record} (hr : r.Loadable) :
    ∃ t, s.mergeRecord r = .ok t ∧ Coherent t ∧ t.valueAt = withRecord s.valueAt r := by
  obtain ⟨t, id, hok, ht, hl, hvalues⟩ := h.insertPath_way .root hr.isNodeName
  rw [List.nil_append] at hl hvalues
  obtain ⟨n, hn, _⟩ := ht.path_of_leads hl
  obtain ⟨u, hset⟩ : ∃ u, t.setValue id r.value = .ok u := ⟨_, by rw [Store.setValue, hn]⟩
  have hu := ht.setValue hset
  refine ⟨u, ?_, hu, ?_⟩
  · rw [Store.mergeRecord, Record.recordFault?_eq_none hr.segments hr.value]
    dsimp only
    rw [hok]
    dsimp only [bind, Except.bind]
    rw [hset]
    rfl
  · -- the path is not blank, so the node is written as the child of the last name
    obtain ⟨above, name, hsplit⟩ : ∃ above name, Path.segments r.path = above ++ [name] :=
      ⟨_, _, (List.dropLast_concat_getLast (Path.segments_ne_nil r.path)).symm⟩
    rw [withRecord, ← hvalues]
    rw [hsplit] at hl ⊢
    obtain ⟨parent, hparent, hchild⟩ := ht.leads_child_iff.mp hl
    have hwrote : t.Wrote parent name (some r.value) u id :=
      .overwritten hchild (get?_setValue hset)
    exact hwrote.valueAt ht hu hparent

/-- A record that is refused leaves the nodes on its way that were taken before it was. -/
theorem Coherent.mergeRecord_of_refused (h : Coherent s) {r : Record} {way : List String}
    {fault : StoreFault} (hr : r.Refused way fault) :
    ∃ t, s.mergeRecord r = .error ⟨fault, t⟩ ∧ Coherent t ∧ t.valueAt = withWay s.valueAt way := by
  have hstay : s.valueAt = withWay s.valueAt [] := (h.withWay_of_leads .root).symm
  cases hr with
  | path blank =>
    exact ⟨s, by simp [Store.mergeRecord, recordFault?, blank], h, hstay⟩
  | value segments lines =>
    refine ⟨s, ?_, h, hstay⟩
    have hbreak : '\n' ∈ r.value.toList ∨ '\r' ∈ r.value.toList := by
      by_contra hnone
      exact lines (Text.oneLine_iff.mpr (not_or.mp hnone))
    simp [Store.mergeRecord, recordFault?, segments, hbreak]
  | @name way name rest blank value segments taken colon =>
    have hway : ∀ n ∈ way, isNodeName n = true := fun n hn =>
      Record.isNodeName_of_mem_segments blank (by simp [segments, hn]) (taken n hn)
    obtain ⟨t, id, hok, ht, _, hvalues⟩ := h.insertPath_way .root hway
    refine ⟨t, ?_, ht, hvalues⟩
    have hbad : isNodeName name = false := by
      rw [Bool.eq_false_iff]
      exact fun hname => (isNodeName_iff.mp hname).2.2 colon
    rw [Store.mergeRecord, Record.recordFault?_eq_none blank value, segments]
    dsimp only
    rw [insertPath_append, hok]
    simp [bind, Except.bind, Store.insertPath, Store.insertOrGetChild, hbad, orInterrupt,
      Except.mapError]

/-! ## All records -/

theorem mem_sortRecords_iff {rs : List Record} {r : Record} : r ∈ sortRecords rs ↔ r ∈ rs := by
  rw [sortRecords, List.mem_mergeSort]

theorem Coherent.foldlM_of_loadable (h : Coherent s) {rs : List Record}
    (hrs : ∀ r ∈ rs, r.Loadable) : ∃ t, rs.foldlM Store.mergeRecord s = .ok t ∧ Coherent t ∧
      t.valueAt = rs.foldl withRecord s.valueAt := by
  induction rs generalizing s with
  | nil => exact ⟨s, rfl, h, rfl⟩
  | cons r rs ih =>
    obtain ⟨t, hok, ht, hvalues⟩ := h.mergeRecord_of_loadable (hrs r List.mem_cons_self)
    obtain ⟨u, hrest, hu, hvalues'⟩ := ih ht fun q hq => hrs q (List.mem_cons_of_mem _ hq)
    refine ⟨u, ?_, hu, by rw [hvalues', hvalues, List.foldl_cons]⟩
    rw [List.foldlM_cons, hok]
    exact hrest

/-- Records that can be loaded are written in ascending order of their paths. -/
theorem Coherent.merge_of_loadable (h : Coherent s) {rs : List Record}
    (hrs : ∀ r ∈ rs, r.Loadable) : ∃ t, s.merge rs = .ok (t, rs.length) ∧ Coherent t ∧
      t.valueAt = (sortRecords rs).foldl withRecord s.valueAt := by
  obtain ⟨t, hok, ht, hvalues⟩ :=
    h.foldlM_of_loadable fun r hr => hrs r (mem_sortRecords_iff.mp hr)
  exact ⟨t, by rw [Store.merge, hok]; rfl, ht, hvalues⟩

/-- The records up to the first one that is refused have been written, in ascending order of their
paths, and of this one the nodes on the way that were taken before it was. -/
structure Partly (s : Store) (rs merged : List Record) (refused : Record) (way : List String)
    (stop : Interruption) : Prop where
  order : ∃ rest, sortRecords rs = merged ++ refused :: rest
  loadable : ∀ r ∈ merged, r.Loadable
  fault : refused.Refused way stop.fault
  coherent : Coherent stop.store
  values : stop.store.valueAt = withWay (merged.foldl withRecord s.valueAt) way

/-- A record that cannot be loaded interrupts the merge. -/
theorem Coherent.merge_of_not_loadable (h : Coherent s) {rs : List Record} {r : Record}
    (hmem : r ∈ rs) (hr : ¬ r.Loadable) :
    ∃ stop merged refused way, s.merge rs = .error stop ∧ s.Partly rs merged refused way stop := by
  obtain ⟨merged, refused, rest, hsplit, hrefused, hmerged⟩ :=
    exists_first (p := fun r => ¬ r.Loadable) (mem_sortRecords_iff.mpr hmem) hr
  have hloadable : ∀ q ∈ merged, q.Loadable := fun q hq => not_not.mp (hmerged q hq)
  obtain ⟨t, hok, ht, hvalues⟩ := h.foldlM_of_loadable hloadable
  obtain ⟨way, fault, hfault⟩ := Record.exists_refused hrefused
  obtain ⟨u, hstop, hu, hvalues'⟩ := ht.mergeRecord_of_refused hfault
  refine ⟨⟨fault, u⟩, merged, refused, way, ?_, ⟨rest, hsplit⟩, hloadable, hfault, hu,
    by rw [hvalues', hvalues]⟩
  rw [Store.merge, hsplit, List.foldlM_append, hok]
  simp only [bind, Except.bind, List.foldlM_cons, hstop]
  rfl

theorem Coherent.exists_of_merge_refused (h : Coherent s) {rs : List Record} {stop : Interruption}
    (hstop : s.merge rs = .error stop) : ∃ r ∈ rs, ¬ r.Loadable := by
  by_contra hall
  obtain ⟨t, hok, _⟩ :=
    h.merge_of_loadable fun r hr => by_contra fun hno => hall ⟨r, hr, hno⟩
  rw [hok] at hstop
  cases hstop

end Store

end TreeDatabase
