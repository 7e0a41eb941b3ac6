import Mathlib.Data.List.Infix
import TreeDatabase.Exchange.Xml
import TreeDatabase.Text.Split

/-!
# Reading XML back

Records are read back from their document. Escaped text holds none of the characters that markup is
made of, so that the document is cut into its tags at the less-than signs alone, and the tag of a
record at its quotes.
-/

namespace TreeDatabase.Xml

/-! ## Escaped text -/

/-- What follows the ampersand in an entity, and the character that the entity stands for. -/
def entities : List (List Char × Char) :=
  [("amp;".toList, '&'), ("lt;".toList, '<'), ("gt;".toList, '>'), ("quot;".toList, '"'),
    ("apos;".toList, '\'')]

/-- A character is written as itself, or as its entity if it has one. -/
theorem escapedChar_cases (c : Char) :
    (escapedChar c = [c] ∧ ∀ e ∈ entities, c ≠ e.2) ∨
      ∃ e ∈ entities, c = e.2 ∧ escapedChar c = '&' :: e.1 := by
  unfold escapedChar
  split
  · exact .inr ⟨("amp;".toList, '&'), by simp [entities], rfl, rfl⟩
  · exact .inr ⟨("lt;".toList, '<'), by simp [entities], rfl, rfl⟩
  · exact .inr ⟨("gt;".toList, '>'), by simp [entities], rfl, rfl⟩
  · exact .inr ⟨("quot;".toList, '"'), by simp [entities], rfl, rfl⟩
  · exact .inr ⟨("apos;".toList, '\''), by simp [entities], rfl, rfl⟩
  · left
    simp_all [entities]

/-- Whether markup is made of a character. -/
def isMarkup (c : Char) : Bool := c == '<' || c == '>' || c == '"' || c == '\''

theorem not_isMarkup_of_mem_escapedChar {c d : Char} (h : d ∈ escapedChar c) :
    isMarkup d = false := by
  rcases escapedChar_cases c with ⟨hself, hplain⟩ | ⟨e, he, -, hentity⟩
  · rw [hself, List.mem_singleton] at h
    simp [entities] at hplain
    simp [h, isMarkup, hplain]
  · have hnames : ∀ e ∈ entities, ∀ d ∈ '&' :: e.1, isMarkup d = false := by
      simp [entities, isMarkup]
    exact hnames e he d (hentity ▸ h)

theorem not_isMarkup_of_mem_escape {cs : List Char} {d : Char}
    (h : d ∈ cs.flatMap escapedChar) : isMarkup d = false := by
  obtain ⟨c, -, hd⟩ := List.mem_flatMap.mp h
  exact not_isMarkup_of_mem_escapedChar hd

/-- Nothing begins in front of a suffix that starts with another character. -/
theorem suffix_of_suffix_append {α : Type} {a : α} {front as rest : List α} (h : a ∉ front)
    (hsuffix : a :: as <:+ front ++ rest) : a :: as <:+ rest := by
  induction front with
  | nil => exact hsuffix
  | cons b front ih =>
    rw [List.cons_append, List.suffix_cons_iff] at hsuffix
    rcases hsuffix with heq | hsuffix
    · exact absurd (List.cons.inj heq).1 fun hab => h (by simp [hab])
    · exact ih (fun hmem => h (List.mem_cons_of_mem b hmem)) hsuffix

/-- Every ampersand in escaped text begins an entity. -/
theorem exists_entity_of_suffix {cs after : List Char}
    (h : '&' :: after <:+ cs.flatMap escapedChar) : ∃ e ∈ entities, e.1 <+: after := by
  induction cs with
  | nil => simp at h
  | cons c cs ih =>
    rw [List.flatMap_cons] at h
    rcases escapedChar_cases c with ⟨hself, hplain⟩ | ⟨e, he, -, hentity⟩
    · have hne : c ≠ '&' := hplain ("amp;".toList, '&') (by simp [entities])
      refine ih (suffix_of_suffix_append ?_ h)
      simpa [hself] using hne.symm
    · rw [hentity, List.cons_append, List.suffix_cons_iff] at h
      rcases h with heq | h
      · exact ⟨e, he, _, (List.cons.inj heq).2.symm⟩
      · have hnames : ∀ e ∈ entities, '&' ∉ e.1 := by decide
        exact ih (suffix_of_suffix_append (hnames e he) h)

/-- Reads entities as the characters that they stand for. -/
def unescape : List Char → List Char
  | '&' :: 'a' :: 'm' :: 'p' :: ';' :: cs => '&' :: unescape cs
  | '&' :: 'l' :: 't' :: ';' :: cs => '<' :: unescape cs
  | '&' :: 'g' :: 't' :: ';' :: cs => '>' :: unescape cs
  | '&' :: 'q' :: 'u' :: 'o' :: 't' :: ';' :: cs => '"' :: unescape cs
  | '&' :: 'a' :: 'p' :: 'o' :: 's' :: ';' :: cs => '\'' :: unescape cs
  | c :: cs => c :: unescape cs
  | [] => []

theorem unescape_cons {c : Char} (h : c ≠ '&') (cs : List Char) :
    unescape (c :: cs) = c :: unescape cs := by
  conv_lhs => unfold unescape
  split <;> simp_all

theorem unescape_escapedChar (c : Char) (cs : List Char) :
    unescape (escapedChar c ++ cs) = c :: unescape cs := by
  rcases escapedChar_cases c with ⟨hself, hplain⟩ | ⟨e, he, rfl, hentity⟩
  · rw [hself, List.singleton_append,
      unescape_cons (hplain ("amp;".toList, '&') (by simp [entities]))]
  · rw [hentity]
    simp only [entities, List.mem_cons, List.not_mem_nil, or_false] at he
    rcases he with rfl | rfl | rfl | rfl | rfl <;> rfl

theorem unescape_escape (cs : List Char) : unescape (cs.flatMap escapedChar) = cs := by
  induction cs with
  | nil => rfl
  | cons c cs ih => rw [List.flatMap_cons, unescape_escapedChar, ih]

/-! ## Records -/

/-- What stands in the tag of a record in front of the path. -/
def tagStart : List Char := "record path=\"".toList

/-- What stands in the closing tag of a record, and behind it. -/
def tagStop : List Char := "/record>\n".toList

/-- Reads what follows a less-than sign: the record whose tag begins there, if there is one. The
path reaches to the closing quote, and the value follows the end of the tag. -/
def readTag? (cs : List Char) : Option Record := do
  let quoted ← cs.dropPrefix? tagStart
  let parts := Text.cutAt (· == '"') quoted
  return ⟨String.ofList (unescape parts.1), String.ofList (unescape ((parts.2.getD []).drop 1))⟩

def readRecords (text : String) : List Record :=
  (Text.pieces (· == '<') text.toList).filterMap readTag?

/-- The characters of a record from the beginning of its tag up to that of the closing tag. -/
def tag (r : Record) : List Char :=
  tagStart ++
    (r.path.toList.flatMap escapedChar ++ '"' :: '>' :: r.value.toList.flatMap escapedChar)

theorem readTag?_tag (r : Record) : readTag? (tag r) = some r := by
  have hdrop : (tag r).dropPrefix? tagStart =
      some (r.path.toList.flatMap escapedChar ++
        '"' :: '>' :: r.value.toList.flatMap escapedChar) :=
    List.dropPrefix?_eq_some_iff.mpr ⟨tagStart, rfl, beq_self_eq_true _⟩
  have hpath : ∀ c ∈ r.path.toList.flatMap escapedChar, (c == '"') = false := by
    intro c hc
    have hmarkup := not_isMarkup_of_mem_escape hc
    simp_all [isMarkup]
  rw [readTag?, hdrop]
  simp [Text.cutAt_append_sep _ hpath, unescape_escape]

theorem lt_not_mem_tag (r : Record) : '<' ∉ tag r := by
  have hstart : '<' ∉ tagStart := by decide
  have hescaped : ∀ cs : List Char, '<' ∉ cs.flatMap escapedChar :=
    fun cs h => absurd (not_isMarkup_of_mem_escape h) (by decide)
  simp [tag, hstart, hescaped]

theorem toList_renderRecord (r : Record) :
    (renderRecord r).toList = [' ', ' '] ++ '<' :: (tag r ++ '<' :: tagStop) := by
  have hstart : "  <record path=\"".toList = [' ', ' '] ++ '<' :: tagStart := by decide
  have hmiddle : "\">".toList = ['"', '>'] := by decide
  have hstop : "</record>\n".toList = '<' :: tagStop := by decide
  unfold renderRecord escape tag
  simp only [String.toList_append, String.toList_ofList, hstart, hmiddle, hstop,
    List.append_assoc, List.cons_append, List.nil_append]

/-! ## Documents -/

theorem pieces_append_lt {as : List Char} (h : '<' ∉ as) (rest : List Char) :
    Text.pieces (· == '<') (as ++ '<' :: rest) = as :: Text.pieces (· == '<') rest := by
  have hplain : ∀ c ∈ as, (c == '<') = false :=
    fun c hc => beq_false_of_ne (ne_of_mem_of_not_mem hc h)
  exact Text.pieces_append_sep _ hplain rfl

/-- What may stand between a less-than sign and the next record. -/
structure IsLead (lead : List Char) : Prop where
  lt_not_mem : '<' ∉ lead
  readTag : ∀ more, readTag? (lead ++ more) = none

theorem isLead_open : IsLead "records>\n".toList := ⟨by decide, fun _ => rfl⟩

theorem isLead_close : IsLead tagStop := ⟨by decide, fun _ => rfl⟩

/-- The characters of records and of the end of their document. -/
def recordsChars (rs : List Record) : List Char :=
  rs.flatMap (fun r => (renderRecord r).toList) ++ '<' :: "/records>".toList

theorem readTags_recordsChars {lead : List Char} (h : IsLead lead) (rs : List Record) :
    (Text.pieces (· == '<') (lead ++ recordsChars rs)).filterMap readTag? = rs := by
  induction rs generalizing lead with
  | nil =>
    have hlead : readTag? lead = none := by simpa using h.readTag []
    have hstop : (Text.pieces (· == '<') "/records>".toList).filterMap readTag? = [] := rfl
    rw [recordsChars, List.flatMap_nil, List.nil_append, pieces_append_lt h.lt_not_mem,
      List.filterMap_cons, hlead, hstop]
  | cons r rs ih =>
    have hlead : '<' ∉ lead ++ [' ', ' '] := by simp [h.lt_not_mem]
    have hwhole : lead ++ recordsChars (r :: rs) = (lead ++ [' ', ' ']) ++
        '<' :: (tag r ++ '<' :: (tagStop ++ recordsChars rs)) := by
      simp [recordsChars, toList_renderRecord]
    rw [hwhole, pieces_append_lt hlead, pieces_append_lt (lt_not_mem_tag r), List.filterMap_cons,
      h.readTag, List.filterMap_cons, readTag?_tag, ih isLead_close]

/-- What is written is read back. -/
theorem readRecords_renderRecords (rs : List Record) : readRecords (renderRecords rs) = rs := by
  have hstart : "<records>\n".toList = [] ++ '<' :: "records>\n".toList := by decide
  have hstop : "</records>".toList = '<' :: "/records>".toList := by decide
  have htext : (renderRecords rs).toList =
      [] ++ '<' :: ("records>\n".toList ++ recordsChars rs) := by
    rw [renderRecords, String.toList_append, String.toList_append, String.toList_join, hstart,
      hstop, recordsChars, List.flatMap_map]
    simp only [List.append_assoc, List.cons_append]
  rw [readRecords, htext, pieces_append_lt List.not_mem_nil, List.filterMap_cons,
    readTags_recordsChars isLead_open]
  rfl

/-- Records are told from their document: it is read back. Escaped text holds no character of
markup, and each of its ampersands begins an entity. -/
theorem renderRecords_injective :
    Function.Injective renderRecords ∧ Function.LeftInverse readRecords renderRecords ∧
      ∀ s : String,
        (∀ c ∈ (escape s).toList, c ≠ '<' ∧ c ≠ '>' ∧ c ≠ '"' ∧ c ≠ '\'') ∧
          ∀ after, '&' :: after <:+ (escape s).toList → ∃ e ∈ entities, e.1 <+: after := by
  have hread : Function.LeftInverse readRecords renderRecords := readRecords_renderRecords
  refine ⟨hread.injective, hread, fun s => ?_⟩
  rw [escape, String.toList_ofList]
  refine ⟨fun c hc => ?_, fun after => exists_entity_of_suffix⟩
  simpa [isMarkup, and_assoc] using not_isMarkup_of_mem_escape hc

end TreeDatabase.Xml
