import TreeDatabase.Proofs.Exchange.Records
import TreeDatabase.Proofs.Store.Changes

/-!
# Exports after a merge

Records are checked one by one while they are written. A load that is refused for one of its records
therefore leaves what it has written so far, and the export tells. A merge that is done exports
records that can be loaded again, but a flat file gives them back only when no path holds a line
feed: names are not checked for line feeds, as values are.
-/

namespace TreeDatabase

namespace Store

variable {s t : Store}

theorem isSome_withWay {values : List String → Option String} {way names : List String}
    (h : (values names).isSome = true) : (withWay values way names).isSome = true := by
  rw [withWay]
  split
  · rfl
  · exact h

/-- What records were written at their paths is there. -/
theorem isSome_foldl_withRecord (values : List String → Option String) {rs : List Record}
    {r : Record} (hr : r ∈ rs) :
    (rs.foldl withRecord values (Path.segments r.path)).isSome = true :=
  (isSome_foldl_withRecord_iff values).mpr (.inr ⟨r, hr, List.prefix_refl _⟩)

/-! ## Refused loads -/

/-- After an interruption the export is as before just if what was written changes no value. -/
theorem Partly.toRecords_eq_iff {rs merged : List Record} {refused : Record} {way : List String}
    {stop : Interruption} (hp : s.Partly rs merged refused way stop) (h : Coherent s) :
    stop.store.toRecords = s.toRecords ↔ ∀ names, names ≠ [] →
      withWay (merged.foldl withRecord s.valueAt) way names = s.valueAt names := by
  rw [hp.coherent.toRecords_eq_iff h, hp.values]

/-- An interrupted load leaves an empty store empty just if it is refused before anything is
written. -/
theorem Partly.toRecords_eq_nil_iff {rs merged : List Record} {refused : Record}
    {way : List String} {stop : Interruption} (hp : s.Partly rs merged refused way stop)
    (h : Coherent s) (he : s.isEmpty = true) :
    stop.store.toRecords = [] ↔ merged = [] ∧ way = [] := by
  have hrecords := h.toRecords_of_isEmpty he
  have hnone : ∀ names, names ≠ [] → s.valueAt names = none := fun _ =>
    h.valueAt_eq_none hrecords
  have hiff := hp.toRecords_eq_iff h
  rw [hrecords] at hiff
  rw [hiff]
  constructor
  · intro hsame
    constructor
    · rw [List.eq_nil_iff_forall_not_mem]
      intro r hr
      have hsome : (withWay (merged.foldl withRecord s.valueAt) way
          (Path.segments r.path)).isSome = true :=
        isSome_withWay (isSome_foldl_withRecord s.valueAt hr)
      rw [hsame _ (Path.segments_ne_nil _), hnone _ (Path.segments_ne_nil _)] at hsome
      cases hsome
    · by_contra hway
      have hsome := hsame way hway
      rw [withWay, if_pos (List.prefix_refl _), hnone way hway] at hsome
      cases hsome
  · rintro ⟨rfl, rfl⟩ names hne
    rw [withWay, if_neg (by simpa using hne), List.foldl_nil]

/-- What becomes of the export when records are refused. -/
structure RefusesPartly (s : Store) (rs : List Record) : Prop where
  /-- A merge is refused just for records that cannot be loaded. -/
  merge_refused : (∃ stop, s.merge rs = .error stop) ↔ ∃ r ∈ rs, ¬ r.Loadable
  /-- It leaves the records before the first of these, in ascending order of their paths, and the
  nodes on the way to the name that is refused. The export is as before just if this changes no
  value. -/
  merge_left : ∀ stop, s.merge rs = .error stop → ∃ merged refused way,
    s.Partly rs merged refused way stop ∧
    (stop.store.toRecords = s.toRecords ↔ ∀ names, names ≠ [] →
      withWay (merged.foldl withRecord s.valueAt) way names = s.valueAt names)
  /-- A load into a store with nodes changes nothing. One into a store without nodes is refused as a
  merge, and exports nothing just if it is refused before anything is written. -/
  load_left : ∀ stop, s.load rs = .error stop →
    (s.isEmpty = false ∧ stop = ⟨.notEmpty s.size, s⟩) ∨
    (s.toRecords = [] ∧ ∃ merged refused way, s.Partly rs merged refused way stop ∧
      (stop.store.toRecords = [] ↔ merged = [] ∧ way = []))

theorem Coherent.refusesPartly (h : Coherent s) (rs : List Record) : s.RefusesPartly rs := by
  have hpartly : ∀ {stop}, s.merge rs = .error stop →
      ∃ merged refused way, s.Partly rs merged refused way stop := by
    intro stop hstop
    obtain ⟨r, hmem, hr⟩ := h.exists_of_merge_refused hstop
    obtain ⟨stop', merged, refused, way, hstop', hp⟩ := h.merge_of_not_loadable hmem hr
    rw [hstop] at hstop'
    cases hstop'
    exact ⟨merged, refused, way, hp⟩
  constructor
  · constructor
    · rintro ⟨stop, hstop⟩
      exact h.exists_of_merge_refused hstop
    · rintro ⟨r, hmem, hr⟩
      obtain ⟨stop, _, _, _, hstop, _⟩ := h.merge_of_not_loadable hmem hr
      exact ⟨stop, hstop⟩
  · intro stop hstop
    obtain ⟨merged, refused, way, hp⟩ := hpartly hstop
    exact ⟨merged, refused, way, hp, hp.toRecords_eq_iff h⟩
  · intro stop hstop
    rw [Store.load] at hstop
    split at hstop
    · next he =>
      obtain ⟨merged, refused, way, hp⟩ := hpartly hstop
      exact .inr ⟨h.toRecords_of_isEmpty he, merged, refused, way, hp,
        hp.toRecords_eq_nil_iff h he⟩
    · next he =>
      cases hstop
      exact .inl ⟨eq_false_of_ne_true he, rfl⟩

end Store

/-- After any changes, a merge or load that is refused leaves what it has written so far. -/
theorem refusesPartly_run (changes : List Change) (rs : List Record) :
    (Change.run changes).RefusesPartly rs :=
  (Change.coherent_run changes).refusesPartly rs

theorem refusesPartly_run_colon :
    ∃ stop, (Change.run [.insertOrGetChild Store.root "a" "0"]).merge
        [⟨"b.c:d", "2"⟩, ⟨"a", "1"⟩] = .error stop ∧
      ∃ merged refused way, (Change.run [.insertOrGetChild Store.root "a" "0"]).Partly
        [⟨"b.c:d", "2"⟩, ⟨"a", "1"⟩] merged refused way stop := by
  have h := refusesPartly_run [.insertOrGetChild Store.root "a" "0"]
    [⟨"b.c:d", "2"⟩, ⟨"a", "1"⟩]
  have hcolon : ¬ (⟨"b.c:d", "2"⟩ : Record).Loadable := fun hl => hl.colon (by decide)
  obtain ⟨stop, hstop⟩ := h.merge_refused.mpr ⟨_, List.mem_cons_self, hcolon⟩
  obtain ⟨merged, refused, way, hp, _⟩ := h.merge_left stop hstop
  exact ⟨stop, hstop, merged, refused, way, hp⟩

/-- A refused merge can leave a record that was not there before. -/
theorem refused_merge_blank_name : ∃ stop, Store.empty.merge [⟨"a", "1"⟩, ⟨"b..c", "2"⟩] =
    .error stop ∧ stop.fault = .invalidPath "b..c" ∧ Store.empty.toRecords = [] ∧
      (⟨"a", "1"⟩ : Record) ∈ stop.store.toRecords := by
  have hsort : Store.sortRecords [⟨"a", "1"⟩, ⟨"b..c", "2"⟩] = [⟨"a", "1"⟩, ⟨"b..c", "2"⟩] :=
    List.mergeSort_of_pairwise (by decide +kernel)
  have hloadable : (⟨"a", "1"⟩ : Record).Loadable :=
    ⟨by decide +kernel, by decide +kernel, by decide +kernel⟩
  have hrefused : (⟨"b..c", "2"⟩ : Record).Refused [] (.invalidPath "b..c") :=
    .path (by decide +kernel)
  obtain ⟨t, hok, ht, hvalues⟩ := Store.coherent_empty.mergeRecord_of_loadable hloadable
  obtain ⟨u, hstop, hu, hvalues'⟩ := ht.mergeRecord_of_refused hrefused
  refine ⟨⟨_, u⟩, ?_, rfl, Store.toRecords_empty, ?_⟩
  · rw [Store.merge, hsort, List.foldlM_cons, hok]
    simp only [bind, Except.bind, List.foldlM_cons, hstop]
    rfl
  · rw [hu.mem_toRecords_iff_valueAt, hvalues', hvalues]
    decide +kernel

/-! ## Flat files of merged records -/

namespace Store

/-- What a merge into an empty store exports: the path of every record, and paths that are made of
the first names of one, each with the value of a record or a blank one. -/
theorem records_of_merge {rs : List Record} {t : Store} {n : Nat}
    (hmerge : empty.merge rs = .ok (t, n)) :
    (∀ r ∈ t.toRecords, r.Loadable ∧ ∃ q ∈ rs, Path.segments r.path <+: Path.segments q.path) ∧
      ∀ q ∈ rs, ∃ r ∈ t.toRecords, r.path = q.path := by
  have hall : ∀ r ∈ rs, r.Loadable := by
    intro r hr
    by_contra hno
    obtain ⟨stop, _, _, _, hstop, _⟩ := coherent_empty.merge_of_not_loadable hr hno
    rw [hmerge] at hstop
    cases hstop
  obtain ⟨u, hok, hu, hvalues⟩ := coherent_empty.merge_of_loadable hall
  rw [hmerge] at hok
  cases hok
  constructor
  · intro r hr
    have hvalue := hu.mem_toRecords_iff_valueAt.mp hr
    rw [hvalues, foldl_withRecord] at hvalue
    split at hvalue
    · next q hfound =>
      have hq := mem_sortRecords_iff.mp (List.mem_reverse.mp (List.mem_of_find?_eq_some hfound))
      have hsegments : Path.segments q.path = Path.segments r.path := by
        simpa using List.find?_some hfound
      refine ⟨hu.loadable_of_mem hr ?_, q, hq, hsegments ▸ List.prefix_refl _⟩
      rw [← Option.some.inj hvalue]
      exact (hall q hq).value
    · rw [valueAt_empty (Path.segments_ne_nil _)] at hvalue
      split at hvalue
      · next hway =>
        obtain ⟨q, hq, hbelow⟩ := hway
        refine ⟨hu.loadable_of_mem hr ?_, q, mem_sortRecords_iff.mp hq, hbelow⟩
        rw [← Option.some.inj hvalue]
        exact Text.oneLine_blank
      · cases hvalue
  · intro q hq
    obtain ⟨value, hvalue⟩ := Option.isSome_iff_exists.mp
      (isSome_foldl_withRecord empty.valueAt (mem_sortRecords_iff.mpr hq))
    exact ⟨⟨q.path, value⟩, hu.mem_toRecords_iff_valueAt.mpr (by rw [hvalues, hvalue]), rfl⟩

end Store

/-- The export of what was merged into an empty store is read back from its flat file just if no
path that was merged holds a line feed. -/
theorem parse_render_merged {rs : List Record} {t : Store} {n : Nat}
    (hmerge : Store.empty.merge rs = .ok (t, n)) :
    FlatFile.parse (FlatFile.render t.toRecords) = .ok t.toRecords ↔
      ∀ r ∈ rs, '\n' ∉ r.path.toList := by
  obtain ⟨hexported, hmerged⟩ := Store.records_of_merge hmerge
  rw [FlatFile.parse_render_iff fun r hr => (hexported r hr).1]
  constructor
  · intro hpaths q hq
    obtain ⟨r, hr, hpath⟩ := hmerged q hq
    rw [← hpath]
    exact hpaths r hr
  · intro hpaths r hr hmem
    obtain ⟨_, q, hq, hbelow⟩ := hexported r hr
    rw [← Path.ofNames_segments r.path] at hmem
    obtain ⟨name, hname, hc⟩ := (Path.mem_ofNames '\n' hmem).resolve_left (by decide)
    exact hpaths q hq (Path.mem_of_mem_segments (hbelow.subset hname) hc)

theorem parse_render_merged_return : ∃ t n,
    Store.empty.merge [⟨"a\r.b", "x:y"⟩, ⟨"a\r", ""⟩] = .ok (t, n) ∧
      FlatFile.parse (FlatFile.render t.toRecords) = .ok t.toRecords := by
  have hall : ∀ r ∈ [(⟨"a\r.b", "x:y"⟩ : Record), ⟨"a\r", ""⟩], r.Loadable := by
    simp only [List.forall_mem_cons, List.not_mem_nil, false_imp_iff, implies_true, and_true]
    exact ⟨⟨by decide +kernel, by decide +kernel, by decide +kernel⟩,
      by decide +kernel, by decide +kernel, by decide +kernel⟩
  obtain ⟨t, hok, _⟩ := Store.coherent_empty.merge_of_loadable hall
  exact ⟨t, _, hok, (parse_render_merged hok).mpr (by decide +kernel)⟩

/-- A path with a line feed is read back as two. -/
theorem parse_render_line_feed : ∃ t, Store.empty.merge [⟨"a\nb", "v"⟩] = .ok (t, 1) ∧
    t.toRecords = [⟨"a\nb", "v"⟩] ∧
      FlatFile.parse (FlatFile.render t.toRecords) = .ok [⟨"a", ""⟩, ⟨"b", "v"⟩] := by
  have hloadable : (⟨"a\nb", "v"⟩ : Record).Loadable :=
    ⟨by decide +kernel, by decide +kernel, by decide +kernel⟩
  obtain ⟨t, hok, _⟩ :=
    Store.coherent_empty.merge_of_loadable (List.forall_mem_singleton.mpr hloadable)
  have hrun : ((Store.empty.merge [⟨"a\nb", "v"⟩]).toOption.map fun r =>
      r.1.nodesBelowRoot.map fun n => (⟨n.path, n.value⟩ : Record)) = some [⟨"a\nb", "v"⟩] := by
    decide +kernel
  have hrecords : t.toRecords = [⟨"a\nb", "v"⟩] := by
    rw [hok] at hrun
    have hnodes : (t.nodesBelowRoot.map fun n => (⟨n.path, n.value⟩ : Record)) =
        [⟨"a\nb", "v"⟩] := Option.some.inj hrun
    rw [Store.toRecords, hnodes, List.mergeSort_singleton]
  refine ⟨t, hok, hrecords, ?_⟩
  rw [hrecords]
  decide +kernel

end TreeDatabase
