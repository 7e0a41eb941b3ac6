import TreeDatabase.Proofs.Database.Session
import TreeDatabase.Proofs.File.Tree

/-!
# Flat files as backends

A flat file in a directory that is there is a backend that works: it is made when it is missing, and
what is saved takes its place as a whole.
-/

namespace TreeDatabase

open FileTree

namespace Backend

/-- What a database does with a file tree. -/
abbrev FileTask (α : Type) := ExceptT StorageFault (StateM FileTree) α

/-- A file tree in which the file of a database can be kept: the path of the file and the one beside
it lead to places of their own, and the directory of the file is there. -/
structure Keeps (path : String) (place beside : List String) (t : FileTree) : Prop where
  file : t.IsFilePath path place
  beside : t.IsFilePath (path ++ ".tmp") beside
  directory : ∀ directory ∈ (FilePath.parent? path).filter (· ≠ ""),
    t.makeDirectories directory = .ok t

theorem Keeps.congr {path : String} {place beside : List String} {t u : FileTree}
    (hk : Keeps path place beside t) (h : SameDirectories t u) : Keeps path place beside u :=
  ⟨hk.file.congr h, hk.beside.congr h, fun d hd => h.makeDirectories (hk.directory d hd)⟩

/-- The records that a file tree holds in a flat file. A missing file holds none. -/
def HoldsInFile (path : String) (place beside : List String) (t : FileTree) (rs : List Record) :
    Prop :=
  Keeps path place beside t ∧
    FlatFile.parse ((t.files.lookup place).getD "") = .ok rs

/-! ## File operations of a database -/

theorem run_onFile {α : Type} {action : StateM FileTree (Except String α)} {a : α}
    {t u : FileTree} (h : action.run t = (.ok a, u)) :
    (onFile action).run.run t = (.ok a, u) := by
  rw [onFile, ExceptT.run_mk, StateT.run_bind, h]
  rfl

theorem run_change {f : FileTree → Except FileFault FileTree} {t u : FileTree}
    (h : f t = .ok u) : (change f).run t = (.ok (), u) := by
  rw [change, StateT.run_modifyGet, h]
  rfl

section

variable {path : String} {place beside : List String} {t : FileTree}

/-- After the preparation there is a file, with the text that it had. -/
theorem run_prepareFile (hk : Keeps path place beside t) :
    ∃ u, (prepareFile path : FileTask Unit).run.run t = (.ok (), u) ∧ SameDirectories t u ∧
      u.files.lookup place = some ((t.files.lookup place).getD "") := by
  have hfile : ∃ u, (do
        if !(← ExceptT.lift (FileAccess.fileExists path)) then
          onFile (FileAccess.writeText path "") : FileTask Unit).run.run t
        = (.ok (), u) ∧ SameDirectories t u ∧
      u.files.lookup place = some ((t.files.lookup place).getD "") := by
    have hhas : (ExceptT.lift (FileAccess.fileExists path) :
        FileTask Bool).run.run t =
        (.ok (t.files.lookup place).isSome, t) := by
      rw [← hk.file.has]
      rfl
    rw [run_bind_of_ok hhas]
    cases hl : t.files.lookup place with
    | some text => exact ⟨t, rfl, ⟨rfl, rfl⟩, hl⟩
    | none =>
      refine ⟨t.put place "", run_onFile (run_change (hk.file.write "")), ⟨rfl, rfl⟩, ?_⟩
      rw [lookup_put, if_pos rfl]
      rfl
  rw [prepareFile]
  split
  · next directory hd =>
    have hmade : (onFile (FileAccess.makeDirectories directory) :
        FileTask Unit).run.run t = (.ok (), t) :=
      run_onFile (run_change (hk.directory directory hd))
    rw [run_bind_of_ok hmade]
    exact hfile
  · exact hfile

theorem run_loadFile (hk : Keeps path place beside t) {text : String} {rs : List Record}
    (hl : t.files.lookup place = some text) (hparse : FlatFile.parse text = .ok rs) :
    (loadFile path : FileTask (List Record)).run.run t = (.ok rs, t) := by
  have hread : (onFile (FileAccess.readText path) :
      FileTask String).run.run t = (.ok text, t) := by
    apply run_onFile
    have hrun : (FileAccess.readText path : StateM FileTree (Except String String)).run t =
        ((t.read path).mapError FileFault.message, t) := rfl
    rw [hrun, read_of_lookup hk.file.follow hl]
    rfl
  rw [loadFile, run_bind_of_ok hread, hparse]
  rfl

/-- The file gets its new text as a whole. -/
theorem run_saveFile (hk : Keeps path place beside t) (rs : List Record) :
    ∃ u, (saveFile path rs : FileTask Unit).run.run t = (.ok (), u) ∧ SameDirectories t u ∧
      u.files.lookup place = some (FlatFile.render rs) := by
  let written := t.put beside (FlatFile.render rs)
  have hsame : SameDirectories t written := sameDirectories_put t beside _
  have hwrite : (onFile (FileAccess.writeText (path ++ ".tmp") (FlatFile.render rs)) :
      FileTask Unit).run.run t = (.ok (), written) :=
    run_onFile (run_change (hk.beside.write _))
  have hl : written.files.lookup beside = some (FlatFile.render rs) := by
    rw [lookup_put, if_pos rfl]
  obtain ⟨u, hmoved, hsame', hl'⟩ := (hk.beside.congr hsame).rename (hk.file.congr hsame) hl
  refine ⟨u, ?_, ⟨hsame'.directories.trans hsame.directories,
    hsame'.workingDirectory.trans hsame.workingDirectory⟩, hl'⟩
  rw [saveFile, run_bind_of_ok hwrite]
  exact run_onFile (run_change hmoved)

end

/-- A flat file is a backend that works. -/
theorem reliable_file (path : String) (place beside : List String) :
    (Backend.file path : Backend (StateM FileTree)).Reliable (HoldsInFile path place beside) where
  load := by
    rintro t rs ⟨hk, hparse⟩
    obtain ⟨u, hprepare, hsame, hl⟩ := run_prepareFile hk
    have hku := hk.congr hsame
    refine ⟨u, ?_, hku, by rwa [hl, Option.getD_some]⟩
    rw [show (Backend.file path : Backend (StateM FileTree)).prepare = prepareFile path from rfl,
      run_bind_of_ok hprepare]
    exact run_loadFile hku hl hparse
  save := by
    rintro t old rs ⟨hk, _⟩ hparse
    obtain ⟨u, hsave, hsame, hl⟩ := run_saveFile hk rs
    exact ⟨u, hsave, hk.congr hsame, by rwa [hl, Option.getD_some]⟩

end Backend

end TreeDatabase
