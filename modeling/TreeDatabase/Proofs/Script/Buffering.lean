import TreeDatabase.CommandLine.Machine
import TreeDatabase.CommandLine.Shell
import TreeDatabase.Proofs.Script.Division

/-!
# Gathering lines

A buffer is divided behind its last semicolon that divides. Lines that are gathered in a buffer, and
executed as far as they are complete, yield the statements of the whole text. So a shell does with
lines what is done with a script.
-/

namespace TreeDatabase

namespace Script

/-! ## The complete part of a buffer -/

/-- What a buffer is divided into: a part that ends in its last semicolon that divides, when it has
one, and the rest. -/
structure Completes (buffer : String) (result : Option String × String) : Prop where
  none_iff : result.1 = none ↔ Undivided buffer.toList
  whole : result.1.getD "" ++ result.2 = buffer
  terminated : ∀ part ∈ result.1, DividesAt part.toList (part.length - 1)
  unfinished : Undivided result.2.toList

/-- A text that is divided is so at a last place. -/
theorem undivided_or_last_division (cs : List Char) :
    Undivided cs ∨
      ∃ as bs, cs = as ++ ';' :: bs ∧ as.getLast? ≠ some '\\' ∧ Undivided bs := by
  induction cs using division_induction with
  | undivided cs hcs => exact .inl hcs
  | divided as bs has hlast ih =>
    rcases ih with hbs | ⟨before, rest, rfl, hbefore, hrest⟩
    · exact .inr ⟨as, bs, rfl, hlast, hbs⟩
    · refine .inr ⟨as ++ ';' :: before, rest, by simp, ?_, hrest⟩
      cases before with
      | nil => simp
      | cons c before => simpa [List.getLast?_append] using hbefore

theorem takeComplete_of_undivided {buffer : String} (h : Undivided buffer.toList) :
    takeComplete buffer = (none, buffer) := by
  simp [takeComplete, parts_of_undivided h]

theorem takeComplete_of_division {buffer : String} {as bs : List Char}
    (hbuffer : buffer.toList = as ++ ';' :: bs) (hlast : as.getLast? ≠ some '\\')
    (hbs : Undivided bs) :
    takeComplete buffer = (some (String.ofList (as ++ [';'])), String.ofList bs) := by
  have hparts : parts none buffer.toList = parts none as ++ [bs] := by
    rw [hbuffer, parts_append_division hlast, parts_of_undivided hbs]
  have hlong : ¬ (parts none buffer.toList).length ≤ 1 := by
    have hpos := List.length_pos_iff.mpr (parts_ne_nil none as)
    rw [hparts, List.length_append, List.length_singleton]
    omega
  have hlength : buffer.length - bs.length = as.length + 1 := by
    rw [← String.length_toList, hbuffer]
    simp
    omega
  have htake : buffer.toList.take (as.length + 1) = as ++ [';'] := by
    simp [hbuffer, List.take_length_add_append]
  rw [takeComplete, if_neg hlong, hparts, List.getLast?_concat, Option.getD_some, hlength, htake]

theorem completes_takeComplete (buffer : String) : Completes buffer (takeComplete buffer) := by
  rcases undivided_or_last_division buffer.toList with hwhole | ⟨as, bs, hbuffer, hlast, hbs⟩
  · rw [takeComplete_of_undivided hwhole]
    exact ⟨by simpa using hwhole, by simp, by simp, hwhole⟩
  · rw [takeComplete_of_division hbuffer hlast hbs]
    refine ⟨?_, ?_, ?_, by simpa using hbs⟩
    · have hdivided : ¬ Undivided buffer.toList := by
        rw [hbuffer]
        exact fun h => hlast h.getLast?
      simpa using hdivided
    · rw [← String.toList_inj, hbuffer]
      simp
    · intro part hpart
      rw [← Option.some.inj hpart, String.length_ofList, String.toList_ofList, List.length_append]
      exact dividesAt_semicolon hlast []

/-! ## Statements of gathered lines -/

def joinLines (lines : List String) : String := String.join (lines.map (· ++ "\n"))

/-- The statements that a buffer yields with the lines that follow it: at each line those of the
part that it completes, and at the end those of what is left, unless it is blank. -/
def gathered (buffer : String) : List String → List ScriptStatement
  | [] => if Text.isBlankText buffer then [] else split buffer
  | line :: lines =>
    match takeComplete (buffer ++ line ++ "\n") with
    | (none, rest) => gathered rest lines
    | (some part, rest) => split part ++ gathered rest lines

theorem texts_append (ps qs : List (List Char)) : texts (ps ++ qs) = texts ps ++ texts qs := by
  simp [texts]

theorem split_of_isBlankText {text : String} (h : Text.isBlankText text = true) :
    split text = [] := by
  have hblank : ∀ c ∈ text.toList, Text.isBlank c = true := List.all_eq_true.mp h
  have hundivided : Undivided text.toList := by
    intro i hi
    exact absurd (hblank ';' (List.mem_of_getElem? hi.1)) (by decide)
  have htrim : Text.trimChars text.toList = [] := Text.trimBy_eq_nil_iff.mpr hblank
  simp [split, parts_of_undivided hundivided, number, htrim]

/-- The part that is complete is split without what follows it. -/
theorem texts_of_takeComplete {buffer part rest : String}
    (h : takeComplete buffer = (some part, rest)) (more : String) :
    texts (parts none (buffer ++ more).toList) =
      texts (parts none part.toList) ++ texts (parts none (rest ++ more).toList) := by
  rcases undivided_or_last_division buffer.toList with hwhole | ⟨as, bs, hbuffer, hlast, hbs⟩
  · rw [takeComplete_of_undivided hwhole] at h
    cases h
  · rw [takeComplete_of_division hbuffer hlast hbs] at h
    cases h
    have hpart : texts (parts none (as ++ [';'])) = texts (parts none as) := by
      rw [parts_append_division hlast, texts_append]
      simp [parts, texts, Text.trimChars, Text.trimBy, Text.dropEndWhile]
    rw [String.toList_append, String.toList_append, hbuffer, String.toList_ofList,
      String.toList_ofList, hpart, List.append_assoc, List.cons_append,
      parts_append_division hlast, texts_append]

theorem map_text_gathered (buffer : String) (lines : List String) :
    (gathered buffer lines).map ScriptStatement.text =
      (split (buffer ++ joinLines lines)).map ScriptStatement.text := by
  induction lines generalizing buffer with
  | nil =>
    rw [gathered, joinLines]
    split
    · next hblank => simp [split_of_isBlankText hblank]
    · simp
  | cons line lines ih =>
    have hwhole : buffer ++ joinLines (line :: lines) =
        buffer ++ line ++ "\n" ++ joinLines lines := by
      simp [joinLines, String.append_assoc]
    rw [gathered, hwhole]
    generalize buffer ++ line ++ "\n" = buffer
    split
    · next rest htake =>
      have hrest := (completes_takeComplete buffer).whole
      rw [htake] at hrest
      rw [ih, ← hrest]
      simp
    · next part rest htake =>
      rw [List.map_append, ih, map_text_split, map_text_split, map_text_split,
        texts_of_takeComplete htake]

end Script

namespace CommandLine

variable {m : Type → Type} [Monad m] [Host m]

namespace Session

/-- Executes one statement and prints its reply, with the statement itself if `debug` is set. -/
def executeShown (debug : Bool) (s : Session) (text : String) : Task m Session := do
  let (s, reply) ← s.execute text
  if debug then Task.host (Host.printLine reply.statement.toJson.render)
  printText (reply.render s.format)
  return s

variable [LawfulMonad m] (debug : Bool) {s : Session}

theorem executeAll_cons (s : Session) (first : ScriptStatement) (rest : List ScriptStatement) :
    s.executeAll (m := m) debug (first :: rest) = (do
      let s ← s.executeShown debug first.text
      if s.exited then pure s else s.executeAll debug rest) := by
  rw [executeAll, executeShown, bind_assoc]
  congr 1
  funext result
  cases debug <;> simp

/-- Only the texts of statements count when they are executed. -/
theorem executeAll_congr (s : Session) {as bs : List ScriptStatement}
    (h : as.map ScriptStatement.text = bs.map ScriptStatement.text) :
    s.executeAll (m := m) debug as = s.executeAll debug bs := by
  induction as generalizing s bs with
  | nil =>
    rw [List.map_nil, eq_comm, List.map_eq_nil_iff] at h
    rw [h]
  | cons a as ih =>
    cases bs with
    | nil => cases h
    | cons b bs =>
      obtain ⟨hfirst, hrest⟩ := List.cons.inj h
      rw [executeAll_cons, executeAll_cons, hfirst]
      congr 1
      funext s
      rw [ih s hrest]

theorem executeAll_append (h : s.exited = false) (as bs : List ScriptStatement) :
    s.executeAll (m := m) debug (as ++ bs) = (do
      let s ← s.executeAll debug as
      if s.exited then pure s else s.executeAll debug bs) := by
  induction as generalizing s with
  | nil => simp [executeAll, h]
  | cons a as ih =>
    rw [List.cons_append, executeAll_cons, executeAll_cons, bind_assoc]
    congr 1
    funext s
    cases hs : s.exited with
    | true => simp [hs]
    | false => simpa using ih hs

end Session

namespace Shell

open Script

variable [LawfulMonad m]

/-- A shell executes the statements that its buffer yields with the lines it is given. -/
theorem feedAll_eq_gathered {shell : Shell} (h : shell.session.exited = false)
    (lines : List String) :
    shell.feedAll (m := m) lines = (do
      let _ ← shell.session.executeAll shell.debug (gathered shell.buffer lines)) := by
  induction lines generalizing shell with
  | nil =>
    rw [feedAll, finish, gathered]
    split <;> simp [Session.executeAll]
  | cons line lines ih =>
    rw [feedAll, feed, gathered]
    generalize takeComplete (shell.buffer ++ line ++ "\n") = result
    obtain ⟨complete, rest⟩ := result
    cases complete with
    | none => simp [h, ih]
    | some part =>
      dsimp only
      rw [Session.executeAll_append _ h, bind_assoc, bind_assoc]
      congr 1
      funext session
      cases hs : session.exited with
      | true => simp [hs]
      | false => simp [hs, ih]

/-- Lines that are gathered yield the statements of the whole text, each with its own text and in
the same order, and a buffer is divided behind its last semicolon that divides, if it has one. So a
shell that is given lines executes what a script of these lines holds. -/
theorem feedAll_eq_split (lines : List String) :
    (gathered "" lines).map ScriptStatement.text =
        (split (joinLines lines)).map ScriptStatement.text ∧
      (∀ buffer, Completes buffer (takeComplete buffer)) ∧
      ∀ (session : Session) (debug : Bool), session.exited = false →
        feedAll (m := m) { session, debug } lines = (do
          let _ ← session.executeAll debug (split (joinLines lines))) := by
  have htexts := map_text_gathered "" lines
  rw [String.empty_append] at htexts
  refine ⟨htexts, completes_takeComplete, fun session debug h => ?_⟩
  rw [feedAll_eq_gathered h, Session.executeAll_congr debug session htexts]

/-- An escaped semicolon, a statement on two lines, and one without a semicolon behind it. -/
theorem feedAll_eq_split_two_lines :
    let session : Session := {
      path := ""
      database := { engine := { resolverState := ⟨0, ⟨id, 0⟩, ⟨2000, 1, 1⟩, ⟨0, 0, 0⟩⟩ } }
      format := .basic
      settings := {} }
    let lines := ["write a = 'x\\;y'; read", "a; delete a"]
    session.exited = false ∧
      (gathered "" lines).map ScriptStatement.text =
        ["write a = 'x\\;y'", "read\na", "delete a"] ∧
      feedAll (m := StateM Machine) { session, debug := false } lines = (do
        let _ ← session.executeAll false (split (joinLines lines))) := by
  intro session lines
  have hexited : session.exited = false := rfl
  obtain ⟨htexts, -, hfeed⟩ := feedAll_eq_split (m := StateM Machine) lines
  exact ⟨hexited, htexts.trans (by decide), hfeed session false hexited⟩

end Shell

end CommandLine

end TreeDatabase
