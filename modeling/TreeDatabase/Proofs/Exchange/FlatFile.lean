import Mathlib.Data.List.Basic
import TreeDatabase.Exchange.FlatFile
import TreeDatabase.Proofs.Store.Merging
import TreeDatabase.Proofs.Text.Cuts

/-!
# Reading flat files back

Records are read back as they were written when the line of each holds what it has to: a path
without line feeds, dots apart and a colon only behind it, and a value on one line. Records whose
paths are made of names on one line are such.
-/

namespace TreeDatabase

namespace Text

theorem pieces_flatMap_lines {lines : List (List Char)} (h : ∀ line ∈ lines, '\n' ∉ line) :
    pieces (· == '\n') (lines.flatMap (· ++ ['\n'])) = lines ++ [[]] := by
  induction lines with
  | nil => rfl
  | cons line lines ih =>
    have hline : ∀ c ∈ line, (c == '\n') = false := by
      intro c hc
      rw [beq_eq_false_iff_ne]
      rintro rfl
      exact h line List.mem_cons_self hc
    rw [List.flatMap_cons, List.append_assoc, List.singleton_append,
      pieces_append_sep _ hline (by simp), ih fun l hl => h l (List.mem_cons_of_mem _ hl)]
    rfl

theorem lineChars_flatMap_lines {lines : List (List Char)} (h : ∀ line ∈ lines, '\n' ∉ line) :
    lineChars (lines.flatMap (· ++ ['\n'])) = lines.map dropReturn := by
  rw [lineChars, pieces_flatMap_lines h, List.reverse_append, List.reverse_singleton,
    List.singleton_append]
  dsimp only
  rw [List.map_reverse, List.reverse_reverse]

theorem dropReturn_of_getLast? {cs : List Char} (h : cs.getLast? ≠ some '\r') :
    dropReturn cs = cs := by
  rw [dropReturn, if_neg h]

theorem getLast?_of_dropReturn_eq_self {cs : List Char} (h : dropReturn cs = cs) :
    cs.getLast? ≠ some '\r' := by
  intro hlast
  rw [dropReturn, if_pos hlast] at h
  have hlength := congrArg List.length h
  have hpos := List.length_pos_of_mem (List.mem_of_getLast? hlast)
  rw [List.length_dropLast] at hlength
  omega

/-- Nothing but a carriage return is dropped. -/
theorem mem_dropReturn {cs : List Char} {c : Char} (hmem : c ∈ cs) (hc : c ≠ '\r') :
    c ∈ dropReturn cs := by
  rw [dropReturn]
  split
  · next hlast =>
    rw [← List.dropLast_append_getLast? '\r' hlast] at hmem
    exact (List.mem_append.mp hmem).resolve_right (by simpa using hc)
  · exact hmem

/-- No line holds a line feed. -/
theorem not_mem_of_mem_lineChars {cs line : List Char} (h : line ∈ lineChars cs) : '\n' ∉ line := by
  have hpiece : ∀ p ∈ pieces (· == '\n') cs, '\n' ∉ p := by
    intro p hp hmem
    have hsep : ('\n' == '\n') = false := not_sep_of_mem_pieces hp hmem
    simp at hsep
  have hended : ∀ ended : List (List Char), ended ⊆ pieces (· == '\n') cs →
      ∀ l ∈ (ended.map dropReturn).reverse, '\n' ∉ l := by
    intro ended hsub l hl hmem
    obtain ⟨p, hp, rfl⟩ := List.mem_map.mp (List.mem_reverse.mp hl)
    apply hpiece p (hsub hp)
    rw [dropReturn] at hmem
    split at hmem
    · exact (List.dropLast_sublist p).subset hmem
    · exact hmem
  rw [lineChars] at h
  split at h
  · cases h
  · next ended hrev =>
    refine hended ended (fun p hp => ?_) line h
    rw [← List.mem_reverse, hrev]
    exact List.mem_cons_of_mem _ hp
  · next last ended _ hrev =>
    rcases List.mem_append.mp h with h | h
    · refine hended ended (fun p hp => ?_) line h
      rw [← List.mem_reverse, hrev]
      exact List.mem_cons_of_mem _ hp
    · apply hpiece
      rw [← List.mem_reverse, hrev, List.mem_singleton.mp h]
      exact List.mem_cons_self

end Text

/-- A record that stands on one line, with names in front of the first colon. -/
structure Record.OnLine (r : Record) : Prop where
  segments : "" ∉ Path.segments r.path
  colon : ':' ∉ r.path.toList
  lineFeed : '\n' ∉ r.path.toList
  value : '\n' ∉ r.value.toList
  /-- A carriage return at the end would belong to the end of the line. -/
  ending : r.value.toList.getLast? ≠ some '\r'

/-- A record that can stand in a flat file: its path is made of names, and all is on one line. -/
structure Record.Portable (r : Record) : Prop where
  names : ∃ names, names ≠ [] ∧
    (∀ name ∈ names, Store.isNodeName name = true ∧ Text.OneLine name) ∧ r.path = Path.ofNames names
  value : Text.OneLine r.value

namespace Record

variable {r : Record}

theorem toList_render (r : Record) : r.render.toList = r.path.toList ++ ':' :: r.value.toList := by
  simp [Record.render, String.toList_append]

theorem Loadable.onLine (h : r.Loadable) (hpath : '\n' ∉ r.path.toList) : r.OnLine where
  segments := h.segments
  colon := h.colon
  lineFeed := hpath
  value := (Text.oneLine_iff.mp h.value).1
  ending := fun hlast => (Text.oneLine_iff.mp h.value).2 (List.mem_of_getLast? hlast)

theorem Portable.onLine (h : r.Portable) : r.OnLine := by
  obtain ⟨names, hne, hnames, hpath⟩ := h.names
  refine (loadable_of_names hne (fun name hname => (hnames name hname).1) hpath h.value).onLine ?_
  rw [hpath]
  intro hc
  obtain ⟨name, hname, hmem⟩ := (Path.mem_ofNames '\n' hc).resolve_left (by decide)
  exact (Text.oneLine_iff.mp (hnames name hname).2).1 hmem

/-- A line ends with the colon or with the value, so not with a carriage return. -/
theorem OnLine.line (h : r.OnLine) :
    '\n' ∉ r.render.toList ∧ r.render.toList.getLast? ≠ some '\r' := by
  rw [toList_render]
  constructor
  · intro hmem
    rcases List.mem_append.mp hmem with hmem | hmem
    · exact h.lineFeed hmem
    · rcases List.mem_cons.mp hmem with heq | hmem
      · cases heq
      · exact h.value hmem
  · rw [List.getLast?_append_of_ne_nil _ (List.cons_ne_nil _ _), List.getLast?_cons]
    intro hlast
    cases hvalue : r.value.toList.getLast? with
    | none =>
      rw [hvalue] at hlast
      cases hlast
    | some c =>
      rw [hvalue] at hlast
      exact h.ending (hvalue.trans hlast)

end Record

namespace FlatFile

theorem toList_render (rs : List Record) :
    (render rs).toList = (rs.map (·.render.toList)).flatMap (· ++ ['\n']) := by
  simp [render, String.toList_join, List.flatMap_map]

theorem readLine?_render {r : Record} (h : r.OnLine) :
    readLine? r.render.toList = some r := by
  have hcut : Text.cutAt (· == ':') r.render.toList = (r.path.toList, some r.value.toList) :=
    Text.cutAt_eq_some_iff.mpr ⟨r.toList_render, h.colon⟩
  have hpieces : (Text.pieces (· == '.') r.path.toList).contains [] = false := by
    rw [← Bool.not_eq_true, List.contains_iff_mem]
    exact fun hmem => h.segments (List.mem_map.mpr ⟨[], hmem, rfl⟩)
  rw [readLine?, hcut]
  dsimp only
  rw [hpieces]
  simp

theorem readLines_render {rs : List Record} (h : ∀ r ∈ rs, r.OnLine) (number : Nat) :
    readLines number (rs.map (·.render.toList)) = .ok rs := by
  induction rs generalizing number with
  | nil => rfl
  | cons r rs ih =>
    have hr := h r List.mem_cons_self
    have hblank : r.render.toList.all Text.isBlank = false := by
      rw [List.all_eq_false]
      exact ⟨':', by simp [Record.toList_render], by decide⟩
    rw [List.map_cons, readLines, hblank, readLine?_render hr,
      ih fun other hmem => h other (List.mem_cons_of_mem _ hmem)]
    rfl

/-- What is written is read back. -/
theorem parse_render_of_onLine {rs : List Record} (h : ∀ r ∈ rs, r.OnLine) :
    parse (render rs) = .ok rs := by
  have hlines : ∀ line ∈ rs.map (·.render.toList), '\n' ∉ line ∧ line.getLast? ≠ some '\r' := by
    intro line hline
    obtain ⟨r, hr, rfl⟩ := List.mem_map.mp hline
    exact (h r hr).line
  rw [parse, toList_render, Text.lineChars_flatMap_lines (fun line hline => (hlines line hline).1),
    List.map_congr_left fun line hline => Text.dropReturn_of_getLast? (hlines line hline).2,
    List.map_id']
  exact readLines_render h 1

theorem parse_render {rs : List Record} (h : ∀ r ∈ rs, r.Portable) : parse (render rs) = .ok rs :=
  parse_render_of_onLine fun r hr => (h r hr).onLine

/-! ## What can be read -/

theorem exists_line_of_readLines {number : Nat} {lines : List (List Char)} {rs : List Record}
    (h : readLines number lines = .ok rs) : ∀ r ∈ rs, ∃ line ∈ lines, readLine? line = some r := by
  induction lines generalizing number rs with
  | nil =>
    cases h
    simp
  | cons line lines ih =>
    have hlater : ∀ {others : List Record} {n : Nat}, readLines n lines = .ok others →
        ∀ r ∈ others, ∃ l ∈ line :: lines, readLine? l = some r := by
      intro others n hothers r hr
      obtain ⟨l, hl, hread⟩ := ih hothers r hr
      exact ⟨l, List.mem_cons_of_mem _ hl, hread⟩
    rw [readLines] at h
    split at h
    · exact hlater h
    · split at h
      · cases h
      · next first hfirst =>
        cases hrest : readLines (number + 1) lines with
        | error fault =>
          rw [hrest] at h
          cases h
        | ok rest =>
          rw [hrest] at h
          cases h
          intro r hr
          rcases List.mem_cons.mp hr with rfl | hr
          · exact ⟨line, List.mem_cons_self, hfirst⟩
          · exact hlater hrest r hr

theorem subset_of_readLine? {line : List Char} {r : Record} (h : readLine? line = some r) :
    r.path.toList ⊆ line ∧ r.value.toList ⊆ line := by
  rw [readLine?] at h
  split at h
  · cases h
  · cases h
    rw [String.toList_ofList, String.toList_ofList]
    refine ⟨fun c hc => Text.mem_of_mem_cutAt_fst hc, ?_⟩
    cases hrest : (Text.cutAt (· == ':') line).2 with
    | none => exact List.nil_subset _
    | some rest => exact fun c hc => Text.mem_of_mem_cutAt_snd hrest hc

/-- Nothing that is read holds a line feed. -/
theorem not_mem_of_parse {text : String} {rs : List Record} (h : parse text = .ok rs) :
    ∀ r ∈ rs, '\n' ∉ r.path.toList ∧ '\n' ∉ r.value.toList := by
  intro r hr
  obtain ⟨line, hline, hread⟩ := exists_line_of_readLines h r hr
  obtain ⟨hpath, hvalue⟩ := subset_of_readLine? hread
  have hline := Text.not_mem_of_mem_lineChars hline
  exact ⟨fun hmem => hline (hpath hmem), fun hmem => hline (hvalue hmem)⟩

/-- A line with a colon is that of the record that is read from it. -/
theorem render_of_readLine? {line : List Char} {r : Record} (h : readLine? line = some r)
    (hcolon : ':' ∈ line) : line = r.render.toList ∧ ':' ∉ r.path.toList ∧
      "" ∉ Path.segments r.path := by
  obtain ⟨front, back, rfl, hfront⟩ := List.eq_append_cons_of_mem hcolon
  rw [readLine?, Text.cutAt_eq_some_iff.mpr ⟨rfl, hfront⟩] at h
  dsimp only at h
  split at h
  · cases h
  · next hpieces =>
    cases h
    refine ⟨by simp [Record.toList_render], by simpa using hfront, ?_⟩
    simpa [Path.segments, Text.splitOn] using hpieces

/-- Each line of records that are all read back, of which a colon tells that it is no blank one, is
read as its record. -/
theorem readLine?_of_readLines {rs : List Record} {number : Nat} {lineOf : Record → List Char}
    (hcolon : ∀ r ∈ rs, ':' ∈ lineOf r) (h : readLines number (rs.map lineOf) = .ok rs) :
    ∀ r ∈ rs, readLine? (lineOf r) = some r := by
  induction rs generalizing number with
  | nil => simp
  | cons r rs ih =>
    have hblank : ((lineOf r).all Text.isBlank) = false := by
      rw [List.all_eq_false]
      exact ⟨':', hcolon r List.mem_cons_self, by decide⟩
    rw [List.map_cons, readLines, hblank, if_neg (by simp)] at h
    split at h
    · cases h
    · next first hfirst =>
      cases hrest : readLines (number + 1) (rs.map lineOf) with
      | error fault =>
        rw [hrest] at h
        cases h
      | ok rest =>
        rw [hrest] at h
        cases h
        exact List.forall_mem_cons.mpr
          ⟨hfirst, ih (fun r hr => hcolon r (List.mem_cons_of_mem _ hr)) hrest⟩

/-- Records are read back just if each of them stands on a line. -/
theorem parse_render_eq_ok_iff {rs : List Record} :
    parse (render rs) = .ok rs ↔ ∀ r ∈ rs, r.OnLine := by
  refine ⟨fun h => ?_, parse_render_of_onLine⟩
  have hfeeds := not_mem_of_parse h
  have hlines : ∀ line ∈ rs.map (·.render.toList), '\n' ∉ line := by
    intro line hline
    obtain ⟨r, hr, rfl⟩ := List.mem_map.mp hline
    simp [Record.toList_render, hfeeds r hr]
  rw [parse, toList_render, Text.lineChars_flatMap_lines hlines, List.map_map] at h
  have hcolon : ∀ r ∈ rs, ':' ∈ Text.dropReturn r.render.toList := fun r _ =>
    Text.mem_dropReturn (by simp [Record.toList_render]) (by decide)
  intro r hr
  obtain ⟨hrender, hpath, hsegments⟩ :=
    render_of_readLine? (readLine?_of_readLines hcolon h r hr) (hcolon r hr)
  refine ⟨hsegments, hpath, (hfeeds r hr).1, (hfeeds r hr).2, fun hlast => ?_⟩
  refine Text.getLast?_of_dropReturn_eq_self hrender ?_
  rw [Record.toList_render, List.getLast?_append_of_ne_nil _ (List.cons_ne_nil _ _),
    List.getLast?_cons, hlast]
  rfl

/-- Records that a store takes are read back just if none of their paths holds a line feed. -/
theorem parse_render_iff {rs : List Record} (h : ∀ r ∈ rs, r.Loadable) :
    parse (render rs) = .ok rs ↔ ∀ r ∈ rs, '\n' ∉ r.path.toList := by
  rw [parse_render_eq_ok_iff]
  exact ⟨fun hlines r hr => (hlines r hr).lineFeed,
    fun hpaths r hr => (h r hr).onLine (hpaths r hr)⟩

end FlatFile

end TreeDatabase
