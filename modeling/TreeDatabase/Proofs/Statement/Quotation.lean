import TreeDatabase.Proofs.Statement.Completeness
import TreeDatabase.Proofs.Statement.Rendering

/-!
# Quoted values

A write gives a node a quoted text for its value. Whatever stands between the quotes divides
nothing, but the blanks at its ends are dropped together with those around the quotes.
-/

namespace TreeDatabase

open Token

namespace Token

/-- A run behind which there is no colon is not the beginning of a time of day. -/
theorem Reads.of_run {ordinal : Nat} {run after : List Char} (hne : run ≠ [])
    (hall : ∀ c ∈ run, isWordChar c = true) (hstop : ∀ c ∈ after.head?, isWordChar c = false)
    (hcolon : after.head? ≠ some ':') : Reads ordinal (ofRun ordinal run) run after := by
  refine .run hne hall hstop ?_
  rintro _ ⟨x₁, x₂, x₃, x₄, x₅, x₆, rfl, hdigits⟩ ⟨rest, hprefix⟩
  have hdigit : ∀ c ∈ [x₁, x₂, x₃, x₄, x₅, x₆], isWordChar c = true := fun c hc =>
    isWordChar_of_isDigit (List.all_eq_true.mp hdigits c hc)
  rcases run with _ | ⟨a, _ | ⟨b, _ | ⟨c, run⟩⟩⟩ <;>
    simp only [List.cons_append, List.nil_append, List.cons.injEq] at hprefix
  · exact hne rfl
  · have hfalse := hstop x₂ (by rw [← hprefix.2]; rfl)
    rw [hdigit x₂ (by simp)] at hfalse
    cases hfalse
  · exact hcolon (by rw [← hprefix.2.2]; rfl)
  · exact ne_colon_of_isWordChar (hall c (by simp)) hprefix.2.2.1.symm

/-- A run is read as a word, or as a keyword that it spells. -/
theorem ofRun_cases (ordinal : Nat) (w : String) :
    ofRun ordinal w.toList = word w ∨
      ∃ g, ofRun ordinal w.toList = keyword g w ordinal := by
  rw [ofRun, String.ofList_toList]
  split
  · next g _ => exact .inr ⟨g, rfl⟩
  · exact .inl rfl

theorem ofRun_ne (ordinal : Nat) (run : List Char) {t : Token} (ht : t.isRun = false) :
    ofRun ordinal run ≠ t := by
  rintro rfl
  rw [ofRun] at ht
  split at ht
  · cases ht
  · cases ht

end Token

namespace Statement

/-- A word that a write takes for the name of a node. -/
structure WritableWord (w : String) : Prop where
  ne_blank : w ≠ ""
  chars : ∀ c ∈ w.toList, isPlainChar c = true
  not_reserved : Vocabulary.isReserved w = false
  not_keyword : Vocabulary.isKeyword w = false
  not_condition : Text.equalsIgnoringCase w Vocabulary.condition = false

/-- A text that can stand between quotes of a kind in a statement. -/
structure Quotable (q : Char) (v : String) : Prop where
  quote : isQuote q = true
  latin : Text.isBasicLatin v = true
  oneLine : Text.OneLine v
  not_quote : q ∉ v.toList
  not_escape : ¬ ['\\', ';'] <:+: v.toList

instance (w : String) : Decidable (WritableWord w) :=
  decidable_of_iff (w ≠ "" ∧ w.toList.all isPlainChar = true ∧
      Vocabulary.isReserved w = false ∧ Vocabulary.isKeyword w = false ∧
      Text.equalsIgnoringCase w Vocabulary.condition = false)
    ⟨fun ⟨hne, hchars, hreserved, hkeyword, hcondition⟩ =>
      ⟨hne, List.all_eq_true.mp hchars, hreserved, hkeyword, hcondition⟩,
    fun h => ⟨h.ne_blank, List.all_eq_true.mpr h.chars, h.not_reserved, h.not_keyword,
      h.not_condition⟩⟩

instance (q : Char) (v : String) : Decidable (Quotable q v) :=
  decidable_of_iff (isQuote q = true ∧ Text.isBasicLatin v = true ∧ Text.OneLine v ∧
      q ∉ v.toList ∧ ¬ ['\\', ';'] <:+: v.toList)
    ⟨fun ⟨hquote, hlatin, hline, hq, hescape⟩ => ⟨hquote, hlatin, hline, hq, hescape⟩,
    fun h => ⟨h.quote, h.latin, h.oneLine, h.not_quote, h.not_escape⟩⟩

/-- A write of one node with a quoted value. -/
def assignment (n : String) (q : Char) (v : String) : String :=
  "write " ++ n ++ " = " ++ String.ofList (q :: v.toList ++ [q])

/-- The tokens of an assignment behind its verb. -/
def nameAndValue (n : String) (q : Char) (v : String) : List Token :=
  [ofRun 0 n.toList, space, equals, space, quoted v q]

def assignmentTokens (n : String) (q : Char) (v : String) : List Token :=
  word "write" :: space :: nameAndValue n q v

section Assignment

variable {n v : String} {q : Char}

theorem toList_assignment (n : String) (q : Char) (v : String) : (assignment n q v).toList =
    "write".toList ++ ([' '] ++ (n.toList ++ ([' '] ++ (['='] ++ ([' '] ++
      ((q :: v.toList ++ [q]) ++ [])))))) := by
  simp [assignment]

theorem WritableWord.isWordChar (h : WritableWord n) : ∀ c ∈ n.toList, isWordChar c = true :=
  fun c hc => isWordChar_of_isPlainChar (h.chars c hc)

theorem WritableWord.ne_of_isKeyword (h : WritableWord n) {w : String}
    (hw : Vocabulary.isKeyword w = true) : n ≠ w := by
  rintro rfl
  rw [h.not_keyword] at hw
  cases hw

theorem readsAll_assignment (hn : WritableWord n) (hv : Quotable q v) :
    ReadsAll 0 (assignment n q v).toList (assignmentTokens n q v) := by
  have hspace : ∀ {ordinal : Nat} {after : List Char},
      (∀ c ∈ after.head?, Text.isBlank c = false) → Reads ordinal space [' '] after :=
    .space (List.cons_ne_nil _ _) (List.forall_mem_singleton.mpr rfl)
  have hequals : ∀ {ordinal : Nat} {after : List Char}, Reads ordinal equals ['='] after :=
    .punctuation rfl
  have hquoted : ∀ {ordinal : Nat}, Reads ordinal (quoted v q) (q :: v.toList ++ [q]) [] := by
    intro ordinal
    have hreads : Reads ordinal (quoted (String.ofList v.toList) q) (q :: v.toList ++ [q]) [] :=
      .quoted hv.quote hv.not_quote hv.oneLine
    rwa [String.ofList_toList] at hreads
  have hrun : ∀ {run after : List Char}, run ≠ [] → (∀ c ∈ run, isWordChar c = true) →
      Reads 0 (ofRun 0 run) run ([' '] ++ after) := by
    intro run after hne hall
    refine .of_run hne hall ?_ (by simp)
    rintro _ ⟨⟩
    decide
  have hverb : ∀ {after : List Char}, Reads 0 (word "write") "write".toList ([' '] ++ after) := by
    intro after
    rw [show word "write" = ofRun 0 "write".toList by decide]
    exact hrun (by decide) (List.all_eq_true.mp (by decide))
  have hne : n.toList ≠ [] := by simpa using hn.ne_blank
  have hfirst : ∀ {after : List Char}, ∀ c ∈ (n.toList ++ after).head?, Text.isBlank c = false := by
    intro after c hc
    rw [List.head?_append_of_ne_nil _ hne] at hc
    exact not_isBlank_of_isWordChar (hn.isWordChar c (List.mem_of_head? hc))
  have hbehind : ∀ {after : List Char}, ∀ c ∈ (['='] ++ after).head?, Text.isBlank c = false := by
    rintro after _ ⟨⟩
    decide
  have hquote : ∀ c ∈ (q :: v.toList ++ [q] ++ []).head?, Text.isBlank c = false := by
    rintro _ ⟨⟩
    exact not_isBlank_of_isQuote hv.quote
  rw [toList_assignment]
  exact .cons hverb (.cons (hspace hfirst) (.cons (hrun hne hn.isWordChar)
    (.cons (hspace hbehind) (.cons hequals (.cons (hspace hquote) (.cons hquoted (.nil _)))))))

/-- Nothing in front of the quotes is escaped, and nothing reaches over them. -/
theorem unescape_assignment (hn : WritableWord n) (hv : Quotable q v) :
    unescape (assignment n q v).toList = (assignment n q v).toList := by
  have hquote : q ≠ '\\' ∧ q ≠ ';' := by
    constructor <;> rintro rfl <;> exact absurd hv.quote (by decide)
  have hfront : '\\' ∉ ("write " ++ n ++ " = ").toList := by
    simp only [String.toList_append, List.mem_append, not_or]
    exact ⟨⟨by decide, fun h => absurd (hn.chars _ h) (by decide)⟩, by decide⟩
  have hvalue : unescape (v.toList ++ [q]) = v.toList ++ [q] := by
    rw [unescape_append (by simpa using hquote.2), unescape_of_not_infix hv.not_escape,
      unescape_eq_self (by simpa using hquote.1.symm)]
  have hquoted : unescape (q :: (v.toList ++ [q])) = q :: (v.toList ++ [q]) := by
    rw [unescape, hvalue]
    exact fun _ hq => absurd hq hquote.1
  rw [assignment, String.toList_append, String.toList_ofList, List.cons_append,
    unescape_append (by simpa using hquote.2), unescape_eq_self hfront, hquoted]

theorem latin_assignment (hn : WritableWord n) (hv : Quotable q v) :
    Text.isBasicLatin (assignment n q v) = true := by
  have hname : n.toList.all (fun c => c.toNat < 128) = true :=
    List.all_eq_true.mpr fun c hc => decide_eq_true (latin_of_isPlainChar (hn.chars c hc))
  have hvalue : v.toList.all (fun c => c.toNat < 128) = true := hv.latin
  have hquote : decide (q.toNat < 128) = true := by
    have hcases := hv.quote
    rw [isQuote, Bool.or_eq_true, beq_iff_eq, beq_iff_eq] at hcases
    rcases hcases with rfl | rfl <;> decide
  rw [Text.isBasicLatin, toList_assignment]
  simp only [List.all_append, List.all_cons, List.all_nil, hname, hvalue, hquote]
  decide

theorem countInWords_assignment (hn : WritableWord n) {c : Char} (hc : isPlainChar c = false) :
    countInWords c (assignmentTokens n q v) = 0 := by
  have hcount : ∀ {w : String}, (∀ d ∈ w.toList, isPlainChar d = true) → w.toList.count c = 0 := by
    intro w hw
    refine List.count_eq_zero.mpr fun hmem => ?_
    rw [hw c hmem] at hc
    cases hc
  have hname : countInWords c [ofRun 0 n.toList] = 0 := by
    rcases ofRun_cases 0 n with hword | ⟨g, hkeyword⟩
    · rw [hword]
      exact hcount hn.chars
    · rw [hkeyword]
      rfl
  have hverb : countInWords c [word "write"] = 0 := hcount (List.all_eq_true.mp (by decide))
  rw [show assignmentTokens n q v = [word "write"] ++ ([space] ++ ([ofRun 0 n.toList] ++
      [space, equals, space, quoted v q])) from rfl,
    countInWords_append, countInWords_append, countInWords_append, hverb, hname]
  rfl

theorem meaningful_assignment (hn : WritableWord n) (hv : Quotable q v) :
    Meaningful (assignment n q v) (assignmentTokens n q v) := by
  obtain ⟨cs, hcs⟩ : ∃ cs, (assignment n q v).toList = 'w' :: cs := ⟨_, toList_assignment n q v⟩
  constructor
  · rintro heq
    rw [heq] at hcs
    cases hcs
  · exact latin_assignment hn hv
  · rw [unescape_assignment hn hv, hcs]
    rintro ⟨rest, hrest⟩
    exact absurd (List.cons.inj hrest).1 (by decide)
  · rw [unescape_assignment hn hv, String.ofList_toList, tokenize_eq_ok_iff]
    refine ⟨(readsAll_assignment hn hv).scan, ?_, ?_⟩
    · rw [countInWords_assignment hn (by decide), countInWords_assignment hn (by decide)]
    · have hcolon : colon ∉ assignmentTokens n q v := by
        simp [assignmentTokens, nameAndValue, (ofRun_ne 0 n.toList (t := colon) rfl).symm]
      rw [List.count_eq_zero.mpr hcolon]
      exact Nat.zero_le 1

theorem body_assignment (hv : Quotable q v) : body (assignment n q v) = assignment n q v := by
  have hfirst : (assignment n q v).toList.head? = some 'w' := by
    rw [toList_assignment]
    rfl
  have hlast : (assignment n q v).toList.getLast? = some q := by
    rw [assignment, String.toList_append, String.toList_ofList, ← List.append_assoc,
      List.getLast?_concat]
  have htrim : Text.trimChars (assignment n q v).toList = (assignment n q v).toList := by
    refine Text.trimBy_eq_self ?_ ?_
    · rw [hfirst]
      exact fun c hc => Option.some.inj hc ▸ rfl
    · rw [hlast]
      exact fun c hc => Option.some.inj hc ▸ not_isBlank_of_isQuote hv.quote
  have hterminated : ¬ Terminated (assignment n q v) := by
    rintro ⟨hsemicolon, _⟩
    rw [htrim, hlast, Option.some.injEq] at hsemicolon
    rw [hsemicolon] at hv
    exact absurd hv.quote (by decide)
  rw [body_of_not_terminated hterminated, Text.trim, htrim, String.ofList_toList]

/-! ## What is made of it -/

theorem not_isRepetition_ofRun (hn : WritableWord n) :
    Clauses.isRepetition (ofRun 0 n.toList) = false := by
  rcases ofRun_cases 0 n with hword | ⟨g, hkeyword⟩
  · rw [hword, Clauses.isRepetition, isWord, beq_eq_false_iff_ne]
    exact fun heq => hn.ne_of_isKeyword (w := Vocabulary.repetition) (by decide) (word.inj heq)
  · rw [hkeyword]
    rfl

theorem not_isCondition_ofRun (hn : WritableWord n) :
    Clauses.isCondition (ofRun 0 n.toList) = false := by
  rcases ofRun_cases 0 n with hword | ⟨g, hkeyword⟩
  · rw [hword]
    exact hn.not_condition
  · rw [hkeyword]
    rfl

/-- A keyword in another letter case than its own is a name like any other. -/
theorem ofTokens?_ofRun (hn : WritableWord n) (field : Field) :
    KeywordSite.ofTokens? field [ofRun 0 n.toList, space] = none := by
  rcases ofRun_cases 0 n with hword | ⟨g, hkeyword⟩
  · rw [hword]
    rfl
  · have hne : n ≠ g.name :=
      hn.ne_of_isKeyword (by simp [Vocabulary.isKeyword, Generator.ofName?_name])
    rw [hkeyword, KeywordSite.ofTokens?]
    change (if n = g.name then _ else none) = none
    rw [if_neg hne]

theorem joinText_name (hn : WritableWord n) : joinText [ofRun 0 n.toList, space] = n := by
  have htext : (ofRun 0 n.toList).text = n := by
    rcases ofRun_cases 0 n with hword | ⟨g, hkeyword⟩
    · rw [hword]
      rfl
    · rw [hkeyword]
      rfl
  have hsingle := joinText_append_space [ofRun 0 n.toList]
  rw [List.singleton_append] at hsingle
  rw [hsingle, joinText_singleton (by rw [htext]; exact Phrase.trim_word hn.chars), htext]

/-- The blanks between the quotes are trimmed with the one in front of them. -/
theorem joinText_value (v : String) (q : Char) : joinText [space, quoted v q] = Text.trim v := by
  have htexts : [space, quoted v q].flatMap (fun t => t.text.toList) = ' ' :: v.toList := by
    rw [List.flatMap_cons, List.flatMap_singleton]
    rfl
  rw [joinText, htexts, Text.trimChars, Text.trimBy, List.dropWhile_cons_of_pos (by decide)]
  rfl

theorem argument_assignment (hn : WritableWord n) (v : String) (q : Char) :
    Argument.ofTokens (nameAndValue n q v) = ⟨[], n, some (Text.trim v), {}, none, none, []⟩ := by
  have hne : ∀ {t : Token}, t.isRun = false → (ofRun 0 n.toList == t) = false := fun ht =>
    beq_eq_false_iff_ne.mpr (ofRun_ne 0 n.toList ht)
  have hwhole : Text.cutAt (· == colon) (nameAndValue n q v) = (nameAndValue n q v, none) :=
    Text.cutAt_of_not_sep (List.forall_mem_cons.mpr ⟨hne rfl, by simp⟩)
  have hparts : Text.cutAt (· == equals) ([ofRun 0 n.toList, space] ++ equals ::
      [space, quoted v q]) = ([ofRun 0 n.toList, space], some [space, quoted v q]) :=
    Text.cutAt_append_sep _ (List.forall_mem_cons.mpr ⟨hne rfl, by simp⟩) rfl
  have hnames : Text.pieces (· == dot) [ofRun 0 n.toList, space] = [[ofRun 0 n.toList, space]] :=
    Text.pieces_of_not_sep (List.forall_mem_cons.mpr ⟨hne rfl, by simp⟩)
  have hvalue : KeywordSite.ofTokens? .selectedValue [space, quoted v q] = none :=
    KeywordSite.ofTokens?_eq_none (by simp [Tame])
  change Text.cutAt (· == equals) (nameAndValue n q v) = _ at hparts
  rw [Argument.ofTokens]
  simp only [hwhole, hparts, Text.afterLast, hnames, List.map_cons, List.map_nil, joinText_name hn,
    joinText_value, Option.map_some, Option.bind_some, hvalue, List.getLast?_singleton,
    Option.getD_some, ofTokens?_ofRun hn]
  rfl

theorem clauses_assignment (hn : WritableWord n) (v : String) (q : Char) :
    Clauses.ofTokens? (assignmentTokens n q v) = some ⟨.write, nameAndValue n q v, none⟩ := by
  have hlast : ∀ t ∈ some (quoted v q), t.isSpace = false := fun t ht => Option.some.inj ht ▸ rfl
  have hwhole : trimSpaces (assignmentTokens n q v) = assignmentTokens n q v :=
    Text.trimBy_eq_self (fun t ht => Option.some.inj ht ▸ rfl) hlast
  have htrimmed : trimSpaces (nameAndValue n q v) = nameAndValue n q v :=
    Text.trimBy_eq_self (fun t ht => Option.some.inj ht ▸ isSpace_ofRun 0 _) hlast
  have hargument : trimSpaces (space :: nameAndValue n q v) = nameAndValue n q v := by
    rw [trimSpaces, Text.trimBy, List.dropWhile_cons_of_pos rfl]
    exact htrimmed
  have hcondition : Text.cutAt Clauses.isCondition (nameAndValue n q v) =
      (nameAndValue n q v, none) :=
    Text.cutAt_of_not_sep
      (List.forall_mem_cons.mpr ⟨not_isCondition_ofRun hn, by simp [Clauses.isCondition]⟩)
  rw [Clauses.ofTokens?, hwhole]
  simp only [assignmentTokens, List.head?_cons, Option.all_some, isSpace, if_true, hargument,
    hcondition, htrimmed]
  rfl

/-- What is read of a write with a quoted value: the text between the quotes without the blanks at
its ends. -/
theorem parse_assignment (hn : WritableWord n) (hv : Quotable q v) :
    parse (assignment n q v) =
      { text := assignment n q v, verb := .write, selectedName := n,
        selectedValue := some (Text.trim v) } := by
  have hrepetition : (assignmentTokens n q v).any Clauses.isRepetition = false := by
    simp only [assignmentTokens, nameAndValue, List.any_cons, not_isRepetition_ofRun hn]
    rfl
  have hmeaningful := (meaningful_assignment hn hv).ofText
  rw [show parse (assignment n q v) = ofText (body (assignment n q v)) from rfl,
    body_assignment hv, hmeaningful,
    interpret_of_clauses (takeRepetitions_of_not_any hrepetition) (clauses_assignment hn v q)]
  have hwith : ({ text := assignment n q v } : Statement).withClauses
      ⟨.write, nameAndValue n q v, none⟩ =
      { text := assignment n q v, verb := .write, selectedName := n,
        selectedValue := some (Text.trim v) } := by
    rw [withClauses]
    simp only [argument_assignment hn]
    rfl
  have hroot : n ≠ Vocabulary.root := hn.ne_of_isKeyword (by decide)
  have hname : isValidName n = true := Phrase.isValidName_of_plainChars hn.chars
  have hblank : Text.isBlankText n = false := Phrase.not_isBlankText hn.ne_blank hn.chars
  rw [hwith]
  refine Phrase.validate_eq_self ?_ ?_ ?_ ?_ ?_ ?_
  · have hcount : ∀ w : String, ¬ 1 < [n].count w := fun w =>
      Nat.not_lt.mpr (List.count_le_length (a := w) (l := [n]))
    simp only [pathFaults, hierarchy, List.nil_append, hcount, decide_false]
    rfl
  · rw [retarget, if_neg (by simp [beginsAtRules])]
  · rw [argumentFaults, hblank]
    rfl
  · rw [hasValidNames, hname]
    rfl
  · rw [verbFaults]
    dsimp only
    rw [writeFaults, Phrase.not_namesRoot (by simpa [childNames] using hroot)]
    simp [faultIf, childNames, hn.not_reserved]
  · rfl

end Assignment

end Statement

end TreeDatabase
