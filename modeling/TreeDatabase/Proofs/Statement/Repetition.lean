import TreeDatabase.Proofs.RepeatCount
import TreeDatabase.Proofs.Statement.Lexing
import TreeDatabase.Proofs.Statement.Soundness
import TreeDatabase.Proofs.Text.Runs

/-!
# Statements that ask for repetitions

A text with a number of repetitions behind it is read as the statement of the text alone, to be
executed as often. Blanks, escapes, the filter and the keywords of the text are read as before.
-/

namespace TreeDatabase

open Token

namespace Text

/-- The text without the blanks at its front. -/
def trimStart (s : String) : String := String.ofList (s.toList.dropWhile isBlank)

end Text

open Number

namespace Statement

/-! ## Tokens of a repetition -/

/-- What is read behind a text that asks for repetitions. -/
def repetitionTokens (n : Nat) : List Token :=
  [space, word Vocabulary.repetition, space, word (numeral n)]

theorem ofWord?_numeral (n : Nat) : Generator.ofWord? (numeral n) = none := by
  rw [Generator.ofWord?, List.find?_eq_none]
  intro g _ hequals
  rw [Text.equalsIgnoringCase, beq_iff_eq] at hequals
  have hchars := congrArg String.toList hequals
  rw [Text.lower, Text.lower, String.toList_ofList, String.toList_ofList] at hchars
  obtain ⟨d, hd⟩ := List.exists_mem_of_ne_nil _ (toList_numeral_ne_nil n)
  have hdigit := isDigit_of_mem_numeral hd
  have hmem : d.toLower ∈ g.name.toList.map Char.toLower := by
    rw [hchars]
    exact List.mem_map_of_mem hd
  rw [toLower_of_isDigit hdigit] at hmem
  have hletters : (g.name.toList.map Char.toLower).any Char.isDigit = false := by
    cases g <;> decide
  exact List.any_eq_false.mp hletters d hmem hdigit

/-! ## The text of a repetition -/

/-- A text that asks for the repetition of another one. -/
def repeated (text : String) (n : Nat) : String := text ++ " Times " ++ numeral n

/-- Whether a text ends in a semicolon that no backslash escapes, apart from blanks. -/
def Terminated (text : String) : Prop :=
  (Text.trimChars text.toList).getLast? = some ';' ∧
    (Text.trimChars text.toList).dropLast.getLast? ≠ some '\\'

instance (text : String) : Decidable (Terminated text) := instDecidableAnd

theorem stripTerminator_eq_self {cs : List Char}
    (h : ¬ (cs.getLast? = some ';' ∧ cs.dropLast.getLast? ≠ some '\\')) :
    stripTerminator cs = cs := by
  unfold stripTerminator
  split
  · rfl
  · next before hescaped hcs =>
    have hwhole : cs = before.reverse ++ [';'] := by
      rw [← List.reverse_reverse cs, hcs, List.reverse_cons]
    refine absurd ⟨by rw [hwhole, List.getLast?_concat], ?_⟩ h
    rw [hwhole, List.dropLast_concat, List.getLast?_reverse]
    intro hhead
    obtain ⟨rest, hrest⟩ := List.head?_eq_some_iff.mp hhead
    exact hescaped rest hrest
  · rfl

theorem unescape_append {cs rest : List Char} (h : rest.head? ≠ some ';') :
    unescape (cs ++ rest) = unescape cs ++ unescape rest := by
  induction cs using unescape.induct with
  | case1 cs ih => rw [List.cons_append, List.cons_append, unescape, unescape, ih, List.cons_append]
  | case2 c cs hplain ih =>
    have hplain' : ∀ after, c = '\\' → cs ++ rest = ';' :: after → False := by
      intro after hc hcs
      cases cs with
      | nil =>
        rw [List.nil_append] at hcs
        exact h (by rw [hcs]; rfl)
      | cons d cs =>
        obtain ⟨rfl, rfl⟩ := List.cons.inj hcs
        exact hplain cs hc rfl
    rw [List.cons_append, unescape, unescape, ih, List.cons_append]
    · exact hplain
    · exact hplain'
  | case3 => rfl

theorem unescape_eq_self {cs : List Char} (h : '\\' ∉ cs) : unescape cs = cs := by
  induction cs using unescape.induct with
  | case1 cs ih => exact absurd List.mem_cons_self h
  | case2 c cs hplain ih =>
    rw [unescape, ih fun hcs => h (List.mem_cons_of_mem _ hcs)]
    exact hplain
  | case3 => rfl

theorem getLast?_unescape (cs : List Char) : (unescape cs).getLast? = cs.getLast? := by
  induction cs using unescape.induct with
  | case1 cs ih =>
    rw [unescape, List.getLast?_cons, List.getLast?_cons, List.getLast?_cons, ih]
    rfl
  | case2 c cs hplain ih =>
    rw [unescape, List.getLast?_cons, List.getLast?_cons, ih]
    exact hplain
  | case3 => rfl

/-! ## Statements that differ in their text and their repetitions -/

/-- The statement as it would have been read of another text that asks for repetitions. -/
def reread (s : Statement) (text : String) (n : Nat) : Statement :=
  { s with text, repetitions := n }

section Reread

variable (s : Statement) (text : String) (n : Nat)

theorem reread_addFault (f : Fault) :
    (s.reread text n).addFault f = (s.addFault f).reread text n := rfl

theorem reread_addFaults (fs : List Fault) :
    (s.reread text n).addFaults fs = (s.addFaults fs).reread text n :=
  List.foldl_hom (reread · text n) fun s f => reread_addFault s text n f

theorem reread_withArgument (a : Argument) :
    (s.reread text n).withArgument a = (s.withArgument a).reread text n := by
  rw [withArgument, withArgument, ← reread_addFaults]
  rfl

theorem reread_withCondition (ts : List Token) :
    (s.reread text n).withCondition ts = (s.withCondition ts).reread text n := by
  have hitem : ∀ (s : Statement) (item : List Token),
      Condition.addItem (s.reread text n) item = (Condition.addItem s item).reread text n := by
    intro s item
    rw [Condition.addItem, Condition.addItem]
    split <;> rfl
  rw [withCondition, withCondition]
  split
  · rfl
  · exact List.foldl_hom (reread · text n) hitem

theorem reread_withClauses (c : Clauses) :
    (s.reread text n).withClauses c = (s.withClauses c).reread text n := by
  rw [withClauses, withClauses]
  dsimp only
  split
  · split <;> rfl
  · split
    · exact reread_withArgument { s with verb := c.verb } text n _
    · rw [← reread_withCondition, ← reread_withArgument]
      rfl

theorem reread_validate : (s.reread text n).validate = s.validate.reread text n := by
  have hretarget : ∀ s : Statement, (s.reread text n).retarget = s.retarget.reread text n := by
    intro s
    rw [retarget, retarget, apply_ite (reread · text n)]
    rfl
  have hsettle : ∀ s : Statement, (s.reread text n).settleSites = s.settleSites.reread text n := by
    intro s
    rw [settleSites, settleSites, apply_ite (reread · text n)]
    rfl
  have hpath : (s.reread text n).pathFaults = s.pathFaults := rfl
  rw [validate, validate, hpath, reread_addFaults, hretarget]
  generalize (s.addFaults s.pathFaults).retarget = r
  have hverb : (r.reread text n).verbFaults = r.verbFaults := rfl
  have hargument : (r.reread text n).argumentFaults = r.argumentFaults := rfl
  have hnames : (r.reread text n).hasValidNames = r.hasValidNames := rfl
  rw [hverb, hargument, hnames, reread_addFaults, reread_addFaults, hsettle]
  rw [apply_ite (reread · text n)]
  rfl

end Reread

/-! ## What was read -/

theorem text_withClauses (s : Statement) (c : Clauses) : (s.withClauses c).text = s.text := by
  have hsame := congrArg Statement.text (reread_withClauses s s.text s.repetitions c)
  exact hsame

theorem text_validate (s : Statement) : s.validate.text = s.text := by
  have hsame := congrArg Statement.text (reread_validate s s.text s.repetitions)
  exact hsame

/-- A statement keeps the text that it was read of, also when it is refused. -/
theorem text_parse (text : String) : (parse text).text = body text := by
  rcases parse_stages text with ⟨_, heq⟩ | ⟨n, f, heq⟩ | ⟨n, clauses, _, heq⟩
  · rw [heq]
  · rw [heq]
    rfl
  · rw [heq, text_validate, text_withClauses]

/-! ## Dividing a repetition -/

theorem takeRepetitions_of_not_any {ts : List Token} (h : ts.any Clauses.isRepetition = false) :
    Clauses.takeRepetitions ts = .ok (ts, 1) := by
  rw [Clauses.takeRepetitions, List.countP_eq_zero.mpr (by simpa using h)]
  rfl

theorem ofTokens?_trimSpaces (ts : List Token) :
    Clauses.ofTokens? (trimSpaces ts) = Clauses.ofTokens? ts := by
  rw [Clauses.ofTokens?, Clauses.ofTokens?, trimSpaces, trimSpaces, Text.trimBy_trimBy]

theorem not_isRepetition_numeral (n : Nat) :
    Clauses.isRepetition (word (numeral n)) = false := by
  rw [Clauses.isRepetition, isWord, beq_eq_false_iff_ne]
  intro heq
  have hdigit := isDigit_of_mem_numeral (n := n) (c := 'T') (by rw [Token.word.inj heq]; decide)
  cases hdigit

theorem takeRepetitions_append {ts : List Token} {n : Nat}
    (h : ts.any Clauses.isRepetition = false) (hpos : 1 ≤ n) (hmax : n ≤ maxRepeatCount) :
    Clauses.takeRepetitions (ts ++ repetitionTokens n) = .ok (trimSpaces ts, n) := by
  have hfree : ∀ t ∈ ts ++ [space], Clauses.isRepetition t = false := by
    intro t ht
    rcases List.mem_append.mp ht with ht | ht
    · simpa using List.any_eq_false.mp h t ht
    · rw [List.mem_singleton.mp ht]
      rfl
  have hwhole : ts ++ repetitionTokens n =
      (ts ++ [space]) ++ word Vocabulary.repetition :: [space, word (numeral n)] := by
    rw [List.append_assoc]
    rfl
  have hword : Clauses.isRepetition (word Vocabulary.repetition) = true := by decide
  have hcount : (ts ++ repetitionTokens n).countP Clauses.isRepetition = 1 := by
    rw [hwhole, List.countP_append, List.countP_eq_zero.mpr (by simpa using hfree),
      List.countP_cons_of_pos hword, List.countP_cons_of_neg (by decide),
      List.countP_cons_of_neg (by simp [not_isRepetition_numeral]), List.countP_nil]
  have htrim : trimSpaces [space, word (numeral n)] = [word (numeral n)] := rfl
  rw [Clauses.takeRepetitions, hcount, hwhole]
  dsimp only
  rw [Text.cutAt_append_sep _ hfree hword, Clauses.repetitions, List.getLast?_concat,
    Option.getD_some, htrim]
  dsimp only
  rw [readRepeatCount_numeral hpos hmax, trimSpaces,
    Text.trimBy_append_of_all _ (by simp [isSpace])]
  rfl

/-! ## Reading a repetition -/

/-- The tokens of what is read of a text. -/
def tokens (text : String) : Except LexFault (List Token) :=
  tokenize (String.ofList (unescape (body text).toList))

/-- Whether a text asks for repetitions itself. -/
def asksRepetition (text : String) : Bool :=
  match tokens text with
  | .ok ts => ts.any Clauses.isRepetition
  | .error _ => false

/-- A text that can be given a number of repetitions: a statement without faults that has none. It
may not end in a semicolon, and behind it there are only blanks of the Basic Latin block. -/
structure Repeatable (text : String) : Prop where
  accepted : (parse text).isError = false
  executable : (parse text).verb ≠ .comment
  single : asksRepetition text = false
  unterminated : ¬ Terminated text
  latin : Text.isBasicLatin (Text.trimStart text) = true

/-- What is read of a text that is neither refused nor passed over. -/
structure Meaningful (text : String) (ts : List Token) : Prop where
  ne_blank : text ≠ ""
  latin : Text.isBasicLatin text = true
  not_comment : ¬ Vocabulary.commentMarker.toList <+: unescape text.toList
  tokenize : tokenize (String.ofList (unescape text.toList)) = .ok ts

theorem Meaningful.ofText {text : String} {ts : List Token} (h : Meaningful text ts) :
    ofText text = interpret { text } ts := by
  rw [Statement.ofText]
  dsimp only
  rw [if_neg h.ne_blank, if_neg (by simp [h.latin]), if_neg (by simp [h.not_comment]), h.tokenize]

theorem exists_meaningful {text : String} (herror : (ofText text).verb ≠ .error)
    (hcomment : (ofText text).verb ≠ .comment) : ∃ ts, Meaningful text ts := by
  rw [Statement.ofText] at herror hcomment
  dsimp only at herror hcomment
  split at herror
  · next hblank =>
    rw [if_pos hblank] at hcomment
    exact absurd rfl hcomment
  · next hblank =>
    rw [if_neg hblank] at hcomment
    split at herror
    · exact absurd rfl herror
    · next hlatin =>
      rw [if_neg hlatin] at hcomment
      split at herror
      · next hmarker =>
        rw [if_pos hmarker] at hcomment
        exact absurd rfl hcomment
      · next hmarker =>
        split at herror
        · exact absurd rfl herror
        · next ts hts => exact ⟨ts, hblank, by simpa using hlatin, by simpa using hmarker, hts⟩

theorem interpret_of_clauses {s : Statement} {ts rest : List Token} {n : Nat} {clauses : Clauses}
    (htake : Clauses.takeRepetitions ts = .ok (rest, n))
    (hclauses : Clauses.ofTokens? rest = some clauses) :
    s.interpret ts = ({ s with repetitions := n }.withClauses clauses).validate := by
  rw [interpret, htake]
  dsimp only
  rw [hclauses]

theorem exists_clauses {s : Statement} {ts : List Token}
    (h : ts.any Clauses.isRepetition = false) (hok : (s.interpret ts).verb ≠ .error) :
    ∃ clauses, Clauses.ofTokens? ts = some clauses := by
  rw [interpret, takeRepetitions_of_not_any h] at hok
  dsimp only at hok
  split at hok
  · exact absurd rfl hok
  · next clauses hclauses => exact ⟨clauses, hclauses⟩

/-- The tokens in front of a repetition are interpreted as they are without it. -/
theorem interpret_append {text text' : String} {ts : List Token} {n : Nat}
    (h : ts.any Clauses.isRepetition = false) (hpos : 1 ≤ n) (hmax : n ≤ maxRepeatCount)
    (hok : (interpret { text } ts).verb ≠ .error) :
    interpret { text := text' } (ts ++ repetitionTokens n) =
      (interpret { text } ts).reread text' n := by
  obtain ⟨clauses, hclauses⟩ := exists_clauses h hok
  rw [interpret_of_clauses (takeRepetitions_of_not_any h) hclauses,
    interpret_of_clauses (takeRepetitions_append h hpos hmax)
      ((ofTokens?_trimSpaces ts).trans hclauses),
    ← reread_validate, ← reread_withClauses]
  rfl

/-- What follows a text in its repetition: the blanks at its end, and the number. -/
theorem scan_repetition {total ordinal n : Nat} {blanks : List Char}
    (h : ∀ c ∈ blanks, Text.isBlank c = true) :
    scan total ordinal (blanks ++ (" Times " ++ numeral n).toList) = .ok (repetitionTokens n) := by
  have hblanks : ∀ c ∈ blanks ++ [' '], Text.isBlank c = true := by
    intro c hc
    rcases List.mem_append.mp hc with hc | hc
    · exact h c hc
    · rw [List.mem_singleton.mp hc]
      decide
  have hword : ∀ c ∈ Vocabulary.repetition.toList, isWordChar c = true :=
    List.all_eq_true.mp (by decide)
  have hdigits : ∀ c ∈ (numeral n).toList, isWordChar c = true :=
    fun c hc => isWordChar_of_isDigit (isDigit_of_mem_numeral hc)
  have hwhole : blanks ++ (" Times " ++ numeral n).toList =
      (blanks ++ [' ']) ++ (Vocabulary.repetition.toList ++ ([' '] ++ (numeral n).toList)) := by
    rw [String.toList_append, List.append_assoc]
    rfl
  have hnumber : Apart [' '] (numeral n).toList :=
    apart_of_blanks_before (by rintro _ ⟨⟩; decide) fun c hc => hdigits c (List.mem_of_head? hc)
  have hspace : Apart Vocabulary.repetition.toList ([' '] ++ (numeral n).toList) :=
    apart_of_blanks_after (by rintro _ ⟨⟩; decide) (by simp [Text.isBlank])
  have hbehind : Apart (blanks ++ [' '])
      (Vocabulary.repetition.toList ++ ([' '] ++ (numeral n).toList)) :=
    apart_of_blanks_before (by simp [Text.isBlank]) (by rintro _ ⟨⟩; decide)
  rw [hwhole, hbehind.scan_append (m := 0) (scan_blanks (by simp) hblanks),
    hspace.scan_append (m := 0) (scan_word (by decide) hword (by decide)),
    hnumber.scan_append (m := 0) (scan_blanks (by simp) (List.forall_mem_singleton.mpr rfl)),
    scan_word (numeral_ne_blank n) hdigits (ofWord?_numeral n)]
  rfl

theorem neutral_repetitionTokens (n : Nat) : Neutral (repetitionTokens n) := by
  have hnone : ∀ c : Char, c.isDigit = false → (numeral n).toList.count c = 0 := by
    intro c hc
    rw [List.count_eq_zero]
    intro hmem
    rw [isDigit_of_mem_numeral hmem] at hc
    cases hc
  constructor
  · simp [countInWords, repetitionTokens, Number.total, hnone, Vocabulary.repetition]
  · rfl

theorem isDigit_of_getLast? {before : List Char} {n : Nat} {d : Char}
    (h : d ∈ (before ++ (numeral n).toList).getLast?) : d.isDigit = true := by
  rw [List.getLast?_append_of_ne_nil _ (by simpa using numeral_ne_blank n)] at h
  exact isDigit_of_mem_numeral (List.mem_of_getLast? h)

theorem body_of_not_terminated {text : String} (h : ¬ Terminated text) :
    body text = Text.trim text := by
  rw [body, stripTerminator_eq_self h]
  rfl

/-- Blanks behind a text stay in front of its number of repetitions. -/
theorem body_repeated {text : String} (h : Text.trim text ≠ "") (n : Nat) :
    body (repeated text n) = repeated (Text.trimStart text) n := by
  have hdrop : text.toList.dropWhile Text.isBlank ≠ [] := by
    intro hnil
    rw [Text.trim, Text.trimChars, Text.trimBy, hnil] at h
    exact h rfl
  have hwhole : (repeated text n).toList =
      text.toList ++ (" Times ".toList ++ (numeral n).toList) := by
    rw [repeated, String.toList_append, String.toList_append, List.append_assoc]
  have htrim : Text.trimChars (repeated text n).toList =
      (text.toList.dropWhile Text.isBlank ++ " Times ".toList) ++ (numeral n).toList := by
    rw [hwhole, Text.trimChars, Text.trimBy, List.dropWhile_append, if_neg (by simpa using hdrop),
      ← List.append_assoc, Text.dropEndWhile_eq_self]
    intro d hd
    exact not_isBlank_of_isWordChar (isWordChar_of_isDigit (isDigit_of_getLast? hd))
  rw [body, htrim, stripTerminator_eq_self]
  · rw [repeated, Text.trimStart, ← String.toList_inj]
    simp
  · rintro ⟨hlast, _⟩
    exact absurd (isDigit_of_getLast? hlast) (by decide)

theorem isBasicLatin_repeated {text : String} (h : Text.isBasicLatin text = true) (n : Nat) :
    Text.isBasicLatin (repeated text n) = true := by
  have hdigits : (numeral n).toList.all (fun c => c.toNat < 128) = true := by
    rw [List.all_eq_true]
    intro c hc
    obtain ⟨_, hto⟩ := Char.isDigit_iff_toNat.mp (isDigit_of_mem_numeral hc)
    exact decide_eq_true (Nat.lt_of_le_of_lt hto (by decide))
  rw [Text.isBasicLatin] at h ⊢
  rw [repeated, String.toList_append, String.toList_append, List.all_append, List.all_append, h,
    hdigits]
  decide

/-- A comment marker does not reach over a boundary at a blank. -/
theorem prefix_of_prefix_append {cs rest : List Char} (hne : cs ≠ [])
    (hrest : ∀ c ∈ rest.head?, Text.isBlank c = true)
    (h : Vocabulary.commentMarker.toList <+: cs ++ rest) :
    Vocabulary.commentMarker.toList <+: cs := by
  rcases cs with _ | ⟨c, _ | ⟨d, cs⟩⟩
  · exact absurd rfl hne
  · cases rest with
    | nil => exact h
    | cons e rest =>
      obtain ⟨after, hafter⟩ := h
      obtain ⟨_, hafter⟩ := List.cons.inj hafter
      obtain ⟨rfl, _⟩ := List.cons.inj hafter
      exact absurd (hrest '/' rfl) (by decide)
  · exact List.prefix_of_prefix_length_le h (List.prefix_append _ _)
      (by simp [Vocabulary.commentMarker])

section

variable {blanks : List Char} (hblanks : ∀ c ∈ blanks, Text.isBlank c = true) (n : Nat)

include hblanks

theorem isBlank_of_head?_repetition :
    ∀ c ∈ (blanks ++ (" Times " ++ numeral n).toList).head?, Text.isBlank c = true := by
  intro c hc
  cases blanks with
  | nil =>
    rw [String.toList_append] at hc
    obtain rfl : ' ' = c := Option.some.inj hc
    decide
  | cons b blanks =>
    obtain rfl : b = c := Option.some.inj hc
    exact hblanks b List.mem_cons_self

theorem not_mem_repetition : '\\' ∉ blanks ++ (" Times " ++ numeral n).toList := by
  rw [String.toList_append]
  intro hmem
  rcases List.mem_append.mp hmem with hmem | hmem
  · exact absurd (hblanks _ hmem) (by decide)
  · rcases List.mem_append.mp hmem with hmem | hmem
    · exact absurd hmem (by decide)
    · exact absurd (isDigit_of_mem_numeral hmem) (by decide)

end

theorem meaningful_repeated {text : String} {ts : List Token} (h : Meaningful (body text) ts)
    (hterminated : ¬ Terminated text) (hlatin : Text.isBasicLatin (Text.trimStart text) = true)
    (n : Nat) :
    Meaningful (repeated (Text.trimStart text) n) (ts ++ repetitionTokens n) := by
  have hbody := body_of_not_terminated hterminated
  obtain ⟨blanks, htext, hblanks⟩ :=
    Text.dropEndWhile_append_dropped Text.isBlank (text.toList.dropWhile Text.isBlank)
  have hwhole : (repeated (Text.trimStart text) n).toList =
      (body text).toList ++ (blanks ++ (" Times " ++ numeral n).toList) := by
    rw [repeated, Text.trimStart, htext, hbody]
    simp [Text.trimChars, Text.trimBy]
  have hhead := isBlank_of_head?_repetition hblanks n
  have hunescape : unescape (repeated (Text.trimStart text) n).toList =
      unescape (body text).toList ++ (blanks ++ (" Times " ++ numeral n).toList) := by
    rw [hwhole, unescape_append, unescape_eq_self (not_mem_repetition hblanks n)]
    intro hsemicolon
    exact absurd (hhead ';' hsemicolon) (by decide)
  have hlast : ∀ d ∈ (unescape (body text).toList).getLast?, Text.isBlank d = false := by
    intro d hd
    rw [getLast?_unescape, hbody, Text.toList_trim] at hd
    exact Text.not_of_getLast?_dropEndWhile hd
  have hne : unescape (body text).toList ≠ [] := by
    intro hnil
    have hnone := getLast?_unescape (body text).toList
    rw [hnil] at hnone
    exact h.ne_blank (by simpa using hnone.symm)
  constructor
  · rw [repeated, ← String.toList_inj.ne]
    simp
  · exact isBasicLatin_repeated hlatin n
  · rw [hunescape]
    exact fun hprefix => h.not_comment (prefix_of_prefix_append hne hhead hprefix)
  · rw [hunescape, String.ofList_append]
    refine tokenize_append ?_ h.tokenize ?_ (neutral_repetitionTokens n)
    · rw [String.toList_ofList, String.toList_ofList]
      exact apart_of_blanks_after hlast hhead
    · intro total
      rw [String.toList_ofList]
      exact scan_repetition hblanks

theorem Repeatable.meaningful {text : String} (h : Repeatable text) : ∃ ts,
    Meaningful (body text) ts ∧ ts.any Clauses.isRepetition = false ∧
      (interpret { text := body text } ts).verb ≠ .error := by
  have haccepted : (ofText (body text)).verb ≠ .error := of_decide_eq_false h.accepted
  obtain ⟨ts, hts⟩ := exists_meaningful haccepted h.executable
  refine ⟨ts, hts, ?_, ?_⟩
  · have hasks := h.single
    rw [asksRepetition, tokens, hts.tokenize] at hasks
    exact hasks
  · rw [← hts.ofText]
    exact haccepted

/-- A text that asks for repetitions is read as the text alone, to be executed as often. -/
theorem Repeatable.parse_repeated {text : String} (h : Repeatable text) {n : Nat} (hpos : 1 ≤ n)
    (hmax : n ≤ maxRepeatCount) :
    parse (repeated text n) = (parse text).reread (body (repeated text n)) n := by
  obtain ⟨ts, hts, hsingle, haccepted⟩ := h.meaningful
  have hblank : Text.trim text ≠ "" := by
    rw [← body_of_not_terminated h.unterminated]
    exact hts.ne_blank
  rw [show parse (repeated text n) = ofText (body (repeated text n)) from rfl,
    show parse text = ofText (body text) from rfl, body_repeated hblank,
    (meaningful_repeated hts h.unterminated h.latin n).ofText, hts.ofText]
  exact interpret_append hsingle hpos hmax haccepted

/-- A text without a number of repetitions is executed once. -/
theorem Repeatable.repetitions {text : String} (h : Repeatable text) :
    (parse text).repetitions = 1 := by
  obtain ⟨ts, hts, hsingle, haccepted⟩ := h.meaningful
  obtain ⟨clauses, hclauses⟩ := exists_clauses hsingle haccepted
  have hread : parse text = ((reread {} (body text) 1).withClauses clauses).validate :=
    hts.ofText.trans (interpret_of_clauses (takeRepetitions_of_not_any hsingle) hclauses)
  rw [hread, reread_withClauses, reread_validate]
  rfl

end Statement

end TreeDatabase
