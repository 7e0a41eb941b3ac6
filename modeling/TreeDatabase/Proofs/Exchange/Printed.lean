import TreeDatabase.CommandLine.Commands
import TreeDatabase.CommandLine.Machine
import TreeDatabase.Proofs.Exchange.FlatFile
import TreeDatabase.Proofs.File.Tree
import TreeDatabase.Proofs.Text.Runs

/-!
# Exports that are printed

An export in flat text goes to a file as it is, and to the standard output without the blanks at its
end. A value can end with blanks, so what is printed is read back as the records of the database
with the value of the last one trimmed.
-/

namespace TreeDatabase

/-- A record whose value has no blanks at its end. -/
def Record.trimmed (r : Record) : Record := { r with value := Text.trimEnd r.value }

/-- No blank is left at the end of a line, so no carriage return either. -/
theorem Record.OnLine.trimmed {r : Record} (h : r.OnLine) : r.trimmed.OnLine where
  segments := h.segments
  colon := h.colon
  lineFeed := h.lineFeed
  value := by
    obtain ⟨blanks, hvalue, _⟩ := Text.dropEndWhile_append_dropped Text.isBlank r.value.toList
    intro hmem
    rw [Record.trimmed, Text.toList_trimEnd] at hmem
    exact h.value (hvalue ▸ List.mem_append_left _ hmem)
  ending := by
    rw [Record.trimmed, Text.toList_trimEnd]
    intro hlast
    have hblank := Text.not_of_getLast?_dropEndWhile hlast
    exact absurd hblank (by decide)

namespace FlatFile

/-- Records of which the last one is trimmed. -/
def trimLast (rs : List Record) : List Record :=
  rs.dropLast ++ (rs.getLast?.map Record.trimmed).toList

@[simp] theorem trimLast_nil : trimLast [] = [] := rfl

@[simp] theorem trimLast_concat (rs : List Record) (r : Record) :
    trimLast (rs ++ [r]) = rs ++ [r.trimmed] := by
  simp [trimLast]

theorem trimLast_eq_self_iff {rs : List Record} :
    trimLast rs = rs ↔ ∀ r ∈ rs.getLast?, Text.trimEnd r.value = r.value := by
  cases rs using List.reverseRecOn with
  | nil => simp
  | append_singleton rs r =>
    rw [trimLast_concat, List.append_cancel_left_eq, List.getLast?_concat]
    constructor
    · rintro h last ⟨⟩
      exact congrArg Record.value (List.cons.inj h).1
    · intro h
      rw [Record.trimmed, h r rfl]

theorem onLine_trimLast {rs : List Record} (h : ∀ r ∈ rs, r.OnLine) :
    ∀ r ∈ trimLast rs, r.OnLine := by
  cases rs using List.reverseRecOn with
  | nil => exact h
  | append_singleton rs r =>
    rw [trimLast_concat]
    obtain ⟨hinit, hlast⟩ := List.forall_mem_append.mp h
    exact List.forall_mem_append.mpr
      ⟨hinit, List.forall_mem_singleton.mpr (hlast r (List.mem_singleton_self r)).trimmed⟩

/-- The blanks at the end of a flat file are the last line feed and those of the last value, since a
colon stands in front of that. -/
theorem trimEnd_render {rs : List Record} (hne : rs ≠ []) :
    Text.trimEnd (render rs) ++ "\n" = render (trimLast rs) := by
  cases rs using List.reverseRecOn with
  | nil => exact absurd rfl hne
  | append_singleton rs r =>
    have htext : (render (rs ++ [r])).toList =
        ((render rs).toList ++ r.path.toList) ++ ':' :: (r.value.toList ++ ['\n']) := by
      simp [toList_render, Record.toList_render]
    have hfeed : ∀ c ∈ ['\n'], Text.isBlank c = true := List.forall_mem_singleton.mpr (by decide)
    rw [← String.toList_inj, String.toList_append, Text.toList_trimEnd, htext,
      Text.dropEndWhile_append_cons _ (by decide), Text.dropEndWhile_append_of_all _ hfeed,
      trimLast_concat]
    simp [toList_render, Record.toList_render, Record.trimmed, Text.toList_trimEnd]

/-- What is printed of records is read back with the last one trimmed. -/
theorem parse_printed {rs : List Record} (h : ∀ r ∈ rs, r.OnLine) :
    parse (Text.trimEnd (render rs) ++ "\n") = .ok (trimLast rs) := by
  by_cases hne : rs = []
  · rw [hne]
    rfl
  · rw [trimEnd_render hne]
    exact parse_render_of_onLine (onLine_trimLast h)

end FlatFile

namespace CommandLine

/-- What a task answers on a machine, and the machine after it. -/
def Machine.after {α : Type} (m : Machine) (task : Task (StateM Machine) α) :
    Except Failure α × Machine := task.run.run m

variable {s : Session} {m : Machine} {f : ExportFormat} {path : String} {place : List String}

theorem Machine.output_printLine (m : Machine) (line : String) :
    { m with printed := line :: m.printed }.output = m.output ++ (line ++ "\n") := by
  simp [Machine.output, String.join_append]

theorem after_runExport_none : m.after (runExport s none f) =
    (.ok (), { m with printed := printedExport f s.database.records :: m.printed }) := rfl

theorem after_runExport_some (hpath : m.tree.IsFilePath path place) :
    m.after (runExport s (some path) f) = (.ok (), { m with
      tree := m.tree.put place (f.render s.database.records)
      printed := ("Exported to " ++ Text.quoted path) :: m.printed }) := by
  have hwrite : (FileAccess.writePrivateText path (f.render s.database.records) :
      StateM Machine (Except String Unit)).run m =
        (.ok (), { m with tree := m.tree.put place (f.render s.database.records) }) := by
    simp only [FileAccess.writePrivateText, Machine.onFiles, FileTree.change, StateT.run_modifyGet,
      hpath.write]
    rfl
  simp only [Machine.after, runExport, Task.file, ExceptT.run_bind, ExceptT.run_mk, StateT.run_bind,
    hwrite]
  rfl

/-- Of a database whose records are read back from a flat file, an export to a file is read back as
the records of the database, and a printed export as these records with the last one trimmed. So the
two carry the same data just if the value of the last record does not end with blanks. -/
theorem runExport_flat (s : Session) (m : Machine) {path : String} {place : List String}
    (hpath : m.tree.IsFilePath path place)
    (hsurvive : FlatFile.parse (FlatFile.render s.database.records) = .ok s.database.records) :
    let rs := s.database.records
    let printed := m.after (runExport s none .flat)
    let written := m.after (runExport s (some path) .flat)
    printed.1 = .ok () ∧ written.1 = .ok () ∧ ∃ shown kept,
      printed.2.output = m.output ++ shown ∧ written.2.tree.read path = .ok kept ∧
      FlatFile.parse kept = .ok rs ∧ FlatFile.parse shown = .ok (FlatFile.trimLast rs) ∧
      (FlatFile.parse shown = FlatFile.parse kept ↔
        ∀ r ∈ rs.getLast?, Text.trimEnd r.value = r.value) := by
  intro rs printed written
  have hprinted : printed = _ := after_runExport_none
  have hwritten : written = _ := after_runExport_some hpath
  have hshown := FlatFile.parse_printed (FlatFile.parse_render_eq_ok_iff.mp hsurvive)
  rw [hprinted, hwritten]
  refine ⟨rfl, rfl, _, FlatFile.render rs, m.output_printLine _, ?_, hsurvive, hshown, ?_⟩
  · have hfollow := (FileTree.sameDirectories_put m.tree place (FlatFile.render rs)).follow
      hpath.follow
    exact FileTree.read_of_lookup hfollow ((FileTree.lookup_put _ _ _ _).trans (if_pos rfl))
  · rw [← FlatFile.trimLast_eq_self_iff, hsurvive, printedExport, ExportFormat.render, hshown,
      Except.ok.injEq]

/-- A value with a colon, and with a blank at its end that no statement would leave there. -/
theorem runExport_flat_blank_at_end :
    let rs : List Record := [⟨"b", "x:y "⟩]
    let store := ((Store.empty.merge rs).toOption.map Prod.fst).getD Store.empty
    let s : Session := {
      path := "t.arbor"
      database := { engine := { resolverState := ⟨0, ⟨id, 0⟩, ⟨2000, 1, 1⟩, ⟨0, 0, 0⟩⟩, store } }
      format := .basic
      settings := {} }
    let m : Machine := { moment := ⟨⟨2000, 1, 1⟩, ⟨0, 0, 0⟩⟩ }
    m.tree.IsFilePath "out" ["out"] ∧ s.database.records = rs ∧
      FlatFile.parse (FlatFile.render rs) = .ok rs ∧
      (m.after (runExport s none .flat)).1 = .ok () ∧
      (m.after (runExport s (some "out") .flat)).1 = .ok () ∧ ∃ shown kept,
        (m.after (runExport s none .flat)).2.output = m.output ++ shown ∧
        (m.after (runExport s (some "out") .flat)).2.tree.read "out" = .ok kept ∧
        FlatFile.parse kept = .ok rs ∧ FlatFile.parse shown = .ok [⟨"b", "x:y"⟩] := by
  intro rs store s m
  have hpath : m.tree.IsFilePath "out" ["out"] :=
    ⟨by decide +kernel, by decide +kernel, by decide +kernel⟩
  have hrecords : s.database.records = rs := by decide +kernel
  have hsurvive : FlatFile.parse (FlatFile.render rs) = .ok rs := by decide +kernel
  obtain ⟨hprinted, hwritten, shown, kept, hshown, hkept, hparsed, htrimmed, _⟩ :=
    runExport_flat s m hpath (by rw [hrecords]; exact hsurvive)
  rw [hrecords] at hparsed htrimmed
  refine ⟨hpath, hrecords, hsurvive, hprinted, hwritten, shown, kept, hshown, hkept, hparsed, ?_⟩
  rw [htrimmed]
  decide +kernel

/-- The blank at the end of the only value is in the file of a database and in the file of its
export, and it is not in what is printed. -/
theorem perform_export_drops_blank :
    let m : Machine := {
      tree := { files := [(["t.arbor"], "a:x \n")] }
      moment := ⟨⟨2000, 1, 1⟩, ⟨0, 0, 0⟩⟩ }
    let printed := (perform ["--database", "t.arbor", "export"] [] : StateM Machine Ending).run m
    let written := (perform ["--database", "t.arbor", "export", "--output", "out"] [] :
      StateM Machine Ending).run m
    printed.1 = .success ∧ written.1 = .success ∧
      printed.2.output = "a:x\n" ∧ written.2.tree.read "out" = .ok "a:x \n" ∧
      FlatFile.parse "a:x \n" = .ok [⟨"a", "x "⟩] ∧ FlatFile.render [⟨"a", "x "⟩] = "a:x \n" ∧
      FlatFile.parse "a:x\n" = .ok [⟨"a", "x"⟩] := by
  decide +kernel

end CommandLine

end TreeDatabase
