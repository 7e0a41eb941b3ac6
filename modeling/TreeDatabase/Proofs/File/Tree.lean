import Mathlib.Tactic.Common
import TreeDatabase.File.Tree

/-!
# Files that are kept in memory

Operations on files leave the directories as they are, so that paths go on leading where they led.
-/

namespace TreeDatabase.FileTree

/-- The directories of two trees are the same. -/
structure SameDirectories (t u : FileTree) : Prop where
  directories : u.directories = t.directories
  workingDirectory : u.workingDirectory = t.workingDirectory

variable {t u : FileTree} {path target text : String} {place goal : List String}

theorem sameDirectories_put (t : FileTree) (place : List String) (text : String) :
    SameDirectories t (t.put place text) := ⟨rfl, rfl⟩

theorem SameDirectories.isDirectory (h : SameDirectories t u) (place : List String) :
    u.isDirectory place = t.isDirectory place := by
  rw [FileTree.isDirectory, FileTree.isDirectory, h.directories]

theorem needDirectory_eq_ok_iff : t.needDirectory place = .ok () ↔ t.isDirectory place = true := by
  rw [needDirectory]
  split
  · next hdirectory => simp [hdirectory]
  · next hdirectory => split <;> simp [hdirectory]

theorem SameDirectories.follow (h : SameDirectories t u) (hf : t.follow path = .ok place) :
    u.follow path = .ok place := by
  have hsteps : ∀ names start, List.foldlM (fun place name => do
        t.needDirectory place
        step place name) start names = .ok place →
      List.foldlM (fun place name => do
        u.needDirectory place
        step place name) start names = .ok place := by
    intro names
    induction names with
    | nil => exact fun _ hstart => hstart
    | cons name names ih =>
      intro start hok
      rw [List.foldlM_cons] at hok ⊢
      cases hneed : t.needDirectory start with
      | error fault =>
        rw [hneed] at hok
        cases hok
      | ok _ =>
        have hneed' : u.needDirectory start = .ok () := by
          rw [needDirectory_eq_ok_iff, h.isDirectory]
          exact needDirectory_eq_ok_iff.mp hneed
        rw [hneed] at hok
        rw [hneed']
        cases hstep : step start name with
        | error fault =>
          simp only [hstep, bind, Except.bind] at hok
          cases hok
        | ok next =>
          simp only [hstep, bind, Except.bind] at hok ⊢
          exact ih next hok
  rw [FileTree.follow] at hf ⊢
  cases hpieces : pieces? path with
  | error fault =>
    rw [hpieces] at hf
    cases hf
  | ok names =>
    rw [hpieces] at hf
    have horigin : u.origin path = t.origin path := by rw [origin, origin, h.workingDirectory]
    rw [horigin]
    exact hsteps names _ hf

/-! ## Reading and writing -/

theorem lookup_filter_ne {files : List (List String × String)} {other : List String}
    (hne : other ≠ place) : (files.filter (·.1 ≠ place)).lookup other = files.lookup other := by
  induction files with
  | nil => rfl
  | cons file files ih =>
    by_cases hfile : file.1 = place
    · have hother : (other == file.1) = false := beq_eq_false_iff_ne.mpr (hfile ▸ hne)
      rw [List.filter_cons_of_neg (by simpa using hfile), ih, List.lookup_cons, hother]
    · rw [List.filter_cons_of_pos (by simpa using hfile), List.lookup_cons, List.lookup_cons, ih]

theorem lookup_put (t : FileTree) (place other : List String) (text : String) :
    (t.put place text).files.lookup other =
      if other = place then some text else t.files.lookup other := by
  rw [put, List.lookup_cons]
  by_cases hother : other = place
  · rw [hother, beq_self_eq_true, if_pos rfl]
  · rw [beq_eq_false_iff_ne.mpr hother, if_neg hother]
    exact lookup_filter_ne hother

theorem read_of_lookup (hf : t.follow path = .ok place) (hl : t.files.lookup place = some text) :
    t.read path = .ok text := by
  rw [read, hf]
  simp only [bind, Except.bind, hl]
  rfl

/-- A path leads to a place in a directory that is no directory itself. -/
structure IsFilePath (t : FileTree) (path : String) (place : List String) : Prop where
  follow : t.follow path = .ok place
  above : t.isDirectory place.dropLast = true
  isFile : t.isDirectory place = false

theorem IsFilePath.congr (hp : t.IsFilePath path place) (h : SameDirectories t u) :
    u.IsFilePath path place :=
  ⟨h.follow hp.follow, (h.isDirectory _).trans hp.above, (h.isDirectory _).trans hp.isFile⟩

theorem IsFilePath.write (hp : t.IsFilePath path place) (text : String) :
    t.write path text = .ok (t.put place text) := by
  rw [FileTree.write, hp.follow]
  simp only [bind, Except.bind, needDirectory_eq_ok_iff.mpr hp.above, hp.isFile]
  rfl

theorem IsFilePath.has (hp : t.IsFilePath path place) :
    t.has path = (t.files.lookup place).isSome := by
  rw [FileTree.has, hp.follow]
  simp only [hp.isFile, Bool.false_or]

/-- A file that is moved is found where it was moved to. -/
theorem IsFilePath.rename (hp : t.IsFilePath path place) (hg : t.IsFilePath target goal)
    (hl : t.files.lookup place = some text) :
    ∃ u, t.rename path target = .ok u ∧ SameDirectories t u ∧ u.files.lookup goal = some text := by
  let moved : FileTree := { t with files := t.files.filter (·.1 ≠ place) }
  have hmoved : SameDirectories t moved := ⟨rfl, rfl⟩
  refine ⟨moved.put goal text, ?_, ⟨rfl, rfl⟩, by rw [lookup_put, if_pos rfl]⟩
  rw [FileTree.rename, read_of_lookup hp.follow hl, hp.follow]
  exact (hg.congr hmoved).write text

/-! ## Making directories -/

/-- A step to a directory that is there is the same in all trees of these directories; another one
makes a directory. -/
theorem enter_cases {fault : FileFault} {name : String} {start next : List String}
    (h : enter fault (t, start) name = .ok (u, next)) :
    u = t ∧ (∀ v, SameDirectories t v → enter fault (v, start) name = .ok (v, next)) ∨
      t.directories.length < u.directories.length := by
  unfold enter at h ⊢
  cases hstep : step start name with
  | error fault =>
    rw [hstep] at h
    cases h
  | ok place =>
    rw [hstep] at h
    simp only [bind, Except.bind] at h ⊢
    by_cases hdirectory : t.isDirectory place = true
    · rw [if_pos hdirectory] at h
      cases h
      refine .inl ⟨rfl, fun v hv => ?_⟩
      rw [hstep]
      dsimp only
      rw [if_pos ((hv.isDirectory next).trans hdirectory)]
      rfl
    · rw [if_neg hdirectory] at h
      split at h
      · cases h
      · cases h
        exact .inr (Nat.lt_succ_self _)

theorem foldlM_enter_cases {fault : FileFault} {names : List String} {start next : List String}
    (h : names.foldlM (enter fault) (t, start) = .ok (u, next)) :
    u = t ∧ (∀ v, SameDirectories t v →
        names.foldlM (enter fault) (v, start) = .ok (v, next)) ∨
      t.directories.length < u.directories.length := by
  induction names generalizing t start with
  | nil =>
    cases h
    exact .inl ⟨rfl, fun v _ => rfl⟩
  | cons name names ih =>
    rw [List.foldlM_cons] at h
    cases henter : enter fault (t, start) name with
    | error fault =>
      rw [henter] at h
      cases h
    | ok position =>
      obtain ⟨t', place⟩ := position
      rw [henter] at h
      rcases enter_cases henter with ⟨rfl, hsame⟩ | hmore
      · refine (ih h).imp_left fun ⟨hu, hrest⟩ => ⟨hu, fun v hv => ?_⟩
        rw [List.foldlM_cons, hsame v hv]
        exact hrest v hv
      · right
        rcases ih h with ⟨rfl, _⟩ | hrest
        · exact hmore
        · exact Nat.lt_trans hmore hrest

/-- Making directories that are all there changes nothing, whatever files there are. -/
theorem SameDirectories.makeDirectories (h : SameDirectories t u)
    (hok : t.makeDirectories path = .ok t) : u.makeDirectories path = .ok u := by
  rw [FileTree.makeDirectories] at hok ⊢
  cases hpieces : pieces? path with
  | error fault =>
    rw [hpieces] at hok
    cases hok
  | ok names =>
    rw [hpieces] at hok
    have horigin : u.origin path = t.origin path := by rw [origin, origin, h.workingDirectory]
    simp only [bind, Except.bind, horigin] at hok ⊢
    cases habove : names.dropLast.foldlM (enter .notDirectory) (t, t.origin path) with
    | error fault =>
      rw [habove] at hok
      cases hok
    | ok position =>
      obtain ⟨t', place⟩ := position
      rw [habove] at hok
      dsimp only at hok
      cases hlast : enter .occupied (t', place) (names.getLast?.getD "") with
      | error fault =>
        rw [hlast] at hok
        cases hok
      | ok final =>
        obtain ⟨t'', last⟩ := final
        rw [hlast] at hok
        cases hok
        rcases foldlM_enter_cases habove with ⟨rfl, hsame⟩ | hmore
        · rcases enter_cases hlast with ⟨_, hsame'⟩ | hmore
          · rw [hsame u h]
            dsimp only
            rw [hsame' u h]
            rfl
          · exact absurd hmore (Nat.lt_irrefl _)
        · rcases enter_cases hlast with ⟨rfl, _⟩ | hmore'
          · exact absurd hmore (Nat.lt_irrefl _)
          · exact absurd (Nat.lt_trans hmore hmore') (Nat.lt_irrefl _)

end TreeDatabase.FileTree
