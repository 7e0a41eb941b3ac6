import Mathlib.Data.List.Basic
import TreeDatabase.CommandLine.Exchange

/-!
# Reading JSON back

Records are read back from their JSON. The reader undoes every escape, passes over the indentation,
and has fuel enough for lists of every length.
-/

namespace TreeDatabase

namespace RecordJson

/-! ## Strings -/

/-- A control character is written by two hexadecimal digits. -/
theorem exists_controlDigits {n : Nat} (h : n < 0x20) :
    ∃ a b, List.replicate (2 - (Number.hexDigits n).length) '0' ++ Number.hexDigits n = [a, b] ∧
      Number.readHex? ['0', '0', a, b] = some n := by
  have hall : ∀ n < 0x20,
      (List.replicate (2 - (Number.hexDigits n).length) '0' ++ Number.hexDigits n).length = 2 ∧
        Number.readHex? ('0' :: '0' ::
          (List.replicate (2 - (Number.hexDigits n).length) '0' ++ Number.hexDigits n)) =
            some n := by decide
  obtain ⟨hlength, hread⟩ := hall n h
  obtain ⟨a, b, hdigits⟩ := List.length_eq_two.mp hlength
  exact ⟨a, b, hdigits, hdigits ▸ hread⟩

/-- Every escape is undone. -/
theorem readChar_escapedChar (c : Char) (rest : List Char) :
    ∃ first more, Json.escapedChar c = first :: more ∧ first ≠ '"' ∧
      readChar first (more ++ rest) = some (c, rest) := by
  unfold Json.escapedChar
  split
  · exact ⟨_, _, rfl, by decide, rfl⟩
  · exact ⟨_, _, rfl, by decide, rfl⟩
  · exact ⟨_, _, rfl, by decide, rfl⟩
  · exact ⟨_, _, rfl, by decide, rfl⟩
  · exact ⟨_, _, rfl, by decide, rfl⟩
  · exact ⟨_, _, rfl, by decide, rfl⟩
  · exact ⟨_, _, rfl, by decide, rfl⟩
  · next hquote hescape _ _ _ _ _ =>
    have hbackslash : c ≠ '\\' := hescape
    split
    · next hcontrol =>
      obtain ⟨a, b, hdigits, hread⟩ := exists_controlDigits hcontrol
      refine ⟨'\\', ['u', '0', '0', a, b], by simp [hdigits], by decide, ?_⟩
      have hlow : isLowSurrogate c.toNat = false := by simp [isLowSurrogate]; omega
      have hhigh : isHighSurrogate c.toNat = false := by simp [isHighSurrogate]; omega
      simp [readChar, readUnits, readHex4, hread, hlow, hhigh]
    · next hplain =>
      exact ⟨c, [], rfl, hquote, by simp [readChar, hbackslash, hplain]⟩

theorem readStringRest_cons {c d : Char} {cs rest : List Char} (h : c ≠ '"')
    (hread : readChar c cs = some (d, rest)) :
    readStringRest (c :: cs) = (readStringRest rest).map fun p => (d :: p.1, p.2) := by
  rw [readStringRest]
  · split
    · next hnone =>
      rw [hread] at hnone
      cases hnone
    · next hsome =>
      rw [hread] at hsome
      cases hsome
      rfl
  · exact h

theorem readStringRest_escaped (cs rest : List Char) :
    readStringRest (cs.flatMap Json.escapedChar ++ '"' :: rest) = some (cs, rest) := by
  induction cs with
  | nil => simp [readStringRest]
  | cons c cs ih =>
    obtain ⟨first, more, hescaped, hquote, hread⟩ :=
      readChar_escapedChar c (cs.flatMap Json.escapedChar ++ '"' :: rest)
    rw [List.flatMap_cons, hescaped, List.cons_append, List.cons_append, List.append_assoc,
      readStringRest_cons hquote hread, ih]
    rfl

theorem readString_renderString (s : String) (rest : List Char) :
    readString (Json.renderString s ++ rest) = some (s, rest) := by
  simp [Json.renderString, readString, readStringRest_escaped]

/-! ## Layout -/

theorem skipBlanks_of_not_isBlank {c : Char} (h : isBlank c = false) (cs : List Char) :
    skipBlanks (c :: cs) = c :: cs := by
  simp [skipBlanks, h]

theorem skipBlanks_newLine (depth : Nat) (cs : List Char) :
    skipBlanks (Json.newLine depth ++ cs) = skipBlanks cs := by
  have hblank : ∀ c ∈ Json.newLine depth, isBlank c = true := by
    intro c hc
    rcases List.mem_cons.mp hc with rfl | hc
    · rfl
    · rw [List.eq_of_mem_replicate hc]
      rfl
  exact List.dropWhile_append_of_pos hblank

theorem skipBlanks_renderString (s : String) (rest : List Char) :
    skipBlanks (Json.renderString s ++ rest) = Json.renderString s ++ rest :=
  skipBlanks_of_not_isBlank rfl _

section Members

variable {p q : Partial} {name text : String}

theorem readMember_renderString (hname : name = "path" ∨ name = "value")
    (hset : p.set? name text = some q) (rest : List Char) :
    readMember p name (' ' :: (Json.renderString text ++ rest)) = some (q, rest) := by
  have hskip : skipBlanks (' ' :: (Json.renderString text ++ rest)) =
      Json.renderString text ++ rest := skipBlanks_renderString text rest
  simp [readMember, hname, hskip, readString_renderString, hset]

theorem readMembers_comma (hname : name = "path" ∨ name = "value")
    (hset : p.set? name text = some q) (fuel : Nat) (rest : List Char) :
    readMembers (fuel + 1) p (Json.newLine 2 ++ (Json.renderString name ++ ':' :: ' ' ::
      (Json.renderString text ++ ',' :: rest))) = readMembers fuel q rest := by
  have hcolon : ∀ cs, skipBlanks (':' :: cs) = ':' :: cs := skipBlanks_of_not_isBlank rfl
  have hcomma : ∀ cs, skipBlanks (',' :: cs) = ',' :: cs := skipBlanks_of_not_isBlank rfl
  rw [readMembers, skipBlanks_newLine, skipBlanks_renderString, readString_renderString]
  simp [hcolon, hcomma, readMember_renderString hname hset]

theorem readMembers_brace {r : Record} (hname : name = "path" ∨ name = "value")
    (hset : p.set? name text = some q) (hcomplete : q.complete? = some r) (fuel : Nat)
    (rest : List Char) :
    readMembers (fuel + 1) p (Json.newLine 2 ++ (Json.renderString name ++ ':' :: ' ' ::
      (Json.renderString text ++ (Json.newLine 1 ++ '\x7d' :: rest)))) = some (r, rest) := by
  have hcolon : ∀ cs, skipBlanks (':' :: cs) = ':' :: cs := skipBlanks_of_not_isBlank rfl
  have hbrace : skipBlanks (Json.newLine 1 ++ '\x7d' :: rest) = '\x7d' :: rest := by
    rw [skipBlanks_newLine, skipBlanks_of_not_isBlank rfl]
  rw [readMembers, skipBlanks_newLine, skipBlanks_renderString, readString_renderString]
  simp [hcolon, hbrace, readMember_renderString hname hset, hcomplete]

end Members

/-- What follows the opening brace of a record, up to its end and beyond. -/
def membersChars (r : Record) (rest : List Char) : List Char :=
  Json.newLine 2 ++ (Json.renderString "path" ++ ':' :: ' ' :: (Json.renderString r.path ++ ',' ::
    (Json.newLine 2 ++ (Json.renderString "value" ++ ':' :: ' ' :: (Json.renderString r.value ++
      (Json.newLine 1 ++ '\x7d' :: rest))))))

theorem renderAt_toJson_append (r : Record) (rest : List Char) :
    Json.renderAt 1 r.toJson ++ rest = '\x7b' :: membersChars r rest := by
  simp [Record.toJson, Json.renderAt, Json.renderMembers, Json.bracketed, membersChars]

theorem readMembers_membersChars (r : Record) (fuel : Nat) (rest : List Char) :
    readMembers (fuel + 2) {} (membersChars r rest) = some (r, rest) := by
  have hpath : Partial.set? {} "path" r.path = some { path := r.path } := rfl
  have hvalue : Partial.set? { path := r.path } "value" r.value =
      some { path := r.path, value := r.value } := by
    simp [Partial.set?]
  rw [membersChars, readMembers_comma (.inl rfl) hpath, readMembers_brace (.inr rfl) hvalue rfl]

theorem readRecord_renderAt (r : Record) (rest : List Char) :
    readRecord (Json.newLine 1 ++ (Json.renderAt 1 r.toJson ++ rest)) = some (r, rest) := by
  obtain ⟨fuel, hfuel⟩ : ∃ fuel, (membersChars r rest).length = fuel + 2 :=
    ⟨(membersChars r rest).length - 2, by simp [membersChars, Json.newLine]⟩
  rw [readRecord, skipBlanks_newLine, renderAt_toJson_append, skipBlanks_of_not_isBlank rfl]
  change readMembers (membersChars r rest).length {} (membersChars r rest) = some (r, rest)
  rw [hfuel, readMembers_membersChars]

/-! ## Lists -/

/-- What follows an item of an array: the other items and the closing bracket. -/
def itemsChars (rs : List Record) : List Char :=
  rs.flatMap (fun r => ',' :: (Json.newLine 1 ++ Json.renderAt 1 r.toJson)) ++
    (Json.newLine 0 ++ [']'])

theorem itemsChars_cons (r : Record) (rs : List Record) : itemsChars (r :: rs) =
    ',' :: (Json.newLine 1 ++ (Json.renderAt 1 r.toJson ++ itemsChars rs)) := by
  simp [itemsChars]

theorem renderItems_toJson (depth : Nat) (rs : List Record) :
    Json.renderItems depth (rs.map Record.toJson) =
      rs.map fun r => Json.renderAt depth r.toJson := by
  induction rs with
  | nil => rfl
  | cons r rs ih => rw [List.map_cons, Json.renderItems, ih, List.map_cons]

theorem toList_render_cons (r : Record) (rs : List Record) : (render (r :: rs)).toList =
    '[' :: (Json.newLine 1 ++ (Json.renderAt 1 r.toJson ++ itemsChars rs)) := by
  rw [render, Json.render, String.toList_ofList, Json.renderAt, renderItems_toJson]
  simp [Json.bracketed, itemsChars, List.flatMap_map]

theorem length_le_itemsChars (rs : List Record) : rs.length ≤ (itemsChars rs).length := by
  induction rs with
  | nil => simp
  | cons r rs ih =>
    simp only [itemsChars_cons, List.length_cons, List.length_append]
    omega

/-- Each item takes one step of fuel. -/
theorem readItems_itemsChars (r : Record) (rs : List Record) {fuel : Nat} (h : rs.length < fuel) :
    readItems fuel (Json.newLine 1 ++ (Json.renderAt 1 r.toJson ++ itemsChars rs)) =
      some (r :: rs, []) := by
  induction rs generalizing r fuel with
  | nil =>
    obtain ⟨fuel, rfl⟩ := Nat.exists_eq_add_one_of_ne_zero (Nat.ne_zero_of_lt h)
    have hbracket : skipBlanks (itemsChars []) = [']'] := by decide
    rw [readItems, readRecord_renderAt]
    simp [hbracket]
  | cons next rs ih =>
    obtain ⟨fuel, rfl⟩ := Nat.exists_eq_add_one_of_ne_zero (Nat.ne_zero_of_lt h)
    have hrest := ih next (Nat.lt_of_succ_lt_succ h)
    have hcomma : skipBlanks (itemsChars (next :: rs)) =
        ',' :: (Json.newLine 1 ++ (Json.renderAt 1 next.toJson ++ itemsChars rs)) := by
      rw [itemsChars_cons, skipBlanks_of_not_isBlank rfl]
    rw [readItems, readRecord_renderAt]
    simp [hcomma, hrest]

theorem readRecords_render (r : Record) (rs : List Record) :
    readRecords (render (r :: rs)).toList = some (r :: rs, []) := by
  have hopen : skipBlanks (Json.newLine 1 ++ (Json.renderAt 1 r.toJson ++ itemsChars rs)) =
      '\x7b' :: membersChars r (itemsChars rs) := by
    rw [skipBlanks_newLine, renderAt_toJson_append, skipBlanks_of_not_isBlank rfl]
  have hfuel : rs.length <
      (Json.newLine 1 ++ (Json.renderAt 1 r.toJson ++ itemsChars rs)).length := by
    have hlength := length_le_itemsChars rs
    simp only [Json.newLine, List.length_cons, List.length_append]
    omega
  rw [toList_render_cons, readRecords, skipBlanks_of_not_isBlank rfl]
  simp only [hopen]
  exact readItems_itemsChars r rs hfuel

/-- What is written is read back. -/
theorem parse?_render (rs : List Record) : parse? (render rs) = some rs := by
  cases rs with
  | nil => decide
  | cons r rs =>
    rw [parse?, readRecords_render]
    rfl

end RecordJson

namespace CommandLine

/-- Whatever their paths and values are, records that are exported as JSON are imported again. -/
theorem parse_render_json (rs : List Record) :
    ImportFormat.json.parse (ExportFormat.json.render rs) = .ok rs := by
  simp only [ImportFormat.parse, ExportFormat.render, RecordJson.parse?_render]

end CommandLine

end TreeDatabase
