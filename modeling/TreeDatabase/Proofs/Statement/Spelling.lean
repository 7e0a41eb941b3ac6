import Mathlib.Data.List.Infix
import TreeDatabase.Proofs.Statement.Repetition

/-!
# Spelling tokens

A text that is put together from names and quoted texts, with a joint between any two of them, is
read as the tokens that these spell.
-/

namespace TreeDatabase

open Token

namespace Statement

/-- Whether a character can stand in a name that is a word. -/
def isPlainChar (c : Char) : Bool := c.isAlphanum || c == '-' || c == '_'

/-- Whether a character can stand at an end of a name or of a quoted text. -/
def isSolid (c : Char) : Bool := isPlainChar c || c == '"'

theorem isWordChar_of_isPlainChar {c : Char} (h : isPlainChar c = true) : isWordChar c = true := by
  rw [isPlainChar, Bool.or_eq_true, Bool.or_eq_true, beq_iff_eq, beq_iff_eq] at h
  rcases h with (h | rfl) | rfl
  · rw [isWordChar, h, Bool.true_or]
  · decide
  · decide

theorem isSolid_cases {c : Char} (h : isSolid c = true) : isPlainChar c = true ∨ c = '"' := by
  simpa [isSolid] using h

theorem not_isBlank_of_isSolid {c : Char} (h : isSolid c = true) : Text.isBlank c = false := by
  rcases isSolid_cases h with hplain | rfl
  · exact not_isBlank_of_isWordChar (isWordChar_of_isPlainChar hplain)
  · decide

/-! ## Joints -/

/-- A token that is neither a keyword nor the word for repetition, and holds no parenthesis. -/
def Tame : Token → Prop
  | word w => (∀ c ∈ w.toList, isPlainChar c = true) ∧ w ≠ Vocabulary.repetition
  | keyword _ _ _ => False
  | _ => True

/-- What can stand between a name or a quoted text and the next one. -/
inductive Joint where
  | path
  | item
  | children
  | value
  | clause

namespace Joint

def chars : Joint → List Char
  | path => ['.']
  | item => [',', ' ']
  | children => [':', ' ']
  | value => [' ', '=', ' ']
  | clause => [' ']

def tokens : Joint → List Token
  | path => [dot]
  | item => [comma, space]
  | children => [colon, space]
  | value => [space, equals, space]
  | clause => [space]

theorem scan_chars (j : Joint) (total ordinal : Nat) :
    scan total ordinal j.chars = .ok j.tokens := by
  have hblank : scan total ordinal [' '] = .ok [space] :=
    scan_blanks (by simp) (List.forall_mem_singleton.mpr rfl)
  have hcons : ∀ {c : Char} {cs after : List Char} {t : Token} {ts : List Token},
      next total ordinal c cs = .ok (t, after) → nextOrdinal ordinal t = ordinal →
      scan total ordinal after = .ok ts → scan total ordinal (c :: cs) = .ok (t :: ts) := by
    intro c cs after t ts hnext hordinal hafter
    rw [scan_cons hnext, hordinal, hafter]
    rfl
  cases j with
  | path => exact hcons rfl rfl (scan_nil total ordinal)
  | item => exact hcons rfl rfl hblank
  | children => exact hcons rfl rfl hblank
  | value => exact hcons rfl rfl (hcons rfl rfl hblank)
  | clause => exact hblank

theorem latin_chars (j : Joint) : j.chars.all (fun c => c.toNat < 128) = true := by
  cases j <;> decide

theorem unescape_chars (j : Joint) : unescape j.chars = j.chars := by
  cases j <;> rfl

theorem tame_tokens (j : Joint) : ∀ t ∈ j.tokens, Tame t := by
  cases j <;> simp [tokens, Tame]

/-- What follows a name or a quoted text does not go on with it. -/
theorem cons_chars (j : Joint) (rest : List Char) : ∃ c cs, j.chars ++ rest = c :: cs ∧
    c ≠ ';' ∧ isWordChar c = false ∧ (c = ':' → cs.head? = some ' ') := by
  cases j with
  | children => exact ⟨_, _, rfl, by decide, by decide, fun _ => rfl⟩
  | path | item | value | clause =>
    exact ⟨_, _, rfl, by decide, by decide, fun h => absurd h (by decide)⟩

theorem getLast?_chars (j : Joint) : ∃ d, j.chars.getLast? = some d ∧
    isWordChar d = false ∧ d ≠ ':' := by
  cases j <;> exact ⟨_, rfl, by decide, by decide⟩

end Joint

/-! ## Texts that spell tokens -/

/-- A text that means the same tokens wherever it stands, and that a name or a quoted text begins
and ends. -/
structure Spells (cs : List Char) (ts : List Token) : Prop where
  latin : cs.all (fun c => c.toNat < 128) = true
  escapes : unescape cs = cs
  scan : ∀ total ordinal, Token.scan total ordinal cs = .ok ts
  first : ∃ c, cs.head? = some c ∧ isSolid c = true
  last : ∃ c, cs.getLast? = some c ∧ isSolid c = true
  tame : ∀ t ∈ ts, Tame t
  firstToken : ∃ t, ts.head? = some t ∧ t.isSpace = false
  lastToken : ∃ t, ts.getLast? = some t ∧ t.isSpace = false

namespace Spells

variable {cs ds : List Char} {ts us : List Token}

theorem apart_joint (h : Spells cs ts) (j : Joint) (rest : List Char) :
    Apart cs (j.chars ++ rest) := by
  obtain ⟨d, hd, hsolid⟩ := h.last
  obtain ⟨c, after, hchars, _, hword, hcolon⟩ := j.cons_chars rest
  rw [hchars]
  constructor
  · rintro e _ f ⟨⟩ _
    exact hword
  · intro e he f _ hblank
    obtain rfl : d = e := Option.some.inj (hd.symm.trans he)
    rw [not_isBlank_of_isSolid hsolid] at hblank
    cases hblank
  · intro f _ hbehind
    obtain rfl : d = ':' := Option.some.inj (hd.symm.trans hbehind)
    exact absurd hsolid (by decide)
  · intro behind hbehind f hf
    obtain ⟨rfl, rfl⟩ := List.cons.inj hbehind
    rw [hcolon rfl] at hf
    obtain rfl : ' ' = f := Option.some.inj hf
    decide

theorem joint_apart (h : Spells cs ts) (j : Joint) : Apart j.chars cs := by
  obtain ⟨c, hc, hsolid⟩ := h.first
  obtain ⟨d, hd, hword, hcolon⟩ := j.getLast?_chars
  constructor
  · intro e he f _ hword'
    obtain rfl : d = e := Option.some.inj (hd.symm.trans he)
    rw [hword] at hword'
    cases hword'
  · intro e _ f hf _
    obtain rfl : c = f := Option.some.inj (hc.symm.trans hf)
    exact not_isBlank_of_isSolid hsolid
  · intro f _ hbehind
    exact absurd (Option.some.inj (hd.symm.trans hbehind)) hcolon
  · rintro after rfl
    obtain rfl : ':' = c := Option.some.inj hc
    exact absurd hsolid (by decide)

/-- Two texts with a joint between them spell the tokens of all three. -/
theorem link (h : Spells cs ts) (j : Joint) (h' : Spells ds us) :
    Spells (cs ++ (j.chars ++ ds)) (ts ++ (j.tokens ++ us)) := by
  obtain ⟨c, hc, hfirst⟩ := h.first
  obtain ⟨d, hd, hlast⟩ := h'.last
  obtain ⟨e, he, hsolid⟩ := h'.first
  constructor
  · rw [List.all_append, List.all_append, h.latin, j.latin_chars, h'.latin]
    rfl
  · obtain ⟨f, after, hchars, hsemicolon, _⟩ := j.cons_chars ds
    rw [unescape_append, unescape_append, h.escapes, j.unescape_chars, h'.escapes]
    · rw [he]
      rintro ⟨⟩
      exact absurd hsolid (by decide)
    · rw [hchars]
      rintro ⟨⟩
      exact hsemicolon rfl
  · intro total ordinal
    rw [(h.apart_joint j ds).scan_append (h.scan total ordinal),
      (h'.joint_apart j).scan_append (j.scan_chars total _), h'.scan]
    rfl
  · exact ⟨c, by rw [List.head?_append, hc]; rfl, hfirst⟩
  · refine ⟨d, ?_, hlast⟩
    rw [List.getLast?_append, List.getLast?_append, hd]
    rfl
  · intro t ht
    rcases List.mem_append.mp ht with ht | ht
    · exact h.tame t ht
    · exact (List.mem_append.mp ht).elim (j.tame_tokens t) (h'.tame t)
  · obtain ⟨t, ht, hspace⟩ := h.firstToken
    exact ⟨t, by rw [List.head?_append, ht]; rfl, hspace⟩
  · obtain ⟨t, ht, hspace⟩ := h'.lastToken
    refine ⟨t, ?_, hspace⟩
    rw [List.getLast?_append, List.getLast?_append, ht]
    rfl

/-- Texts with one joint between any two of them. -/
theorem intercalate {α : Type} {chars : α → List Char} {tokens : α → List Token} (j : Joint)
    {as : List α} (hne : as ≠ []) (h : ∀ a ∈ as, Spells (chars a) (tokens a)) :
    Spells (j.chars.intercalate (as.map chars)) (j.tokens.intercalate (as.map tokens)) := by
  induction as with
  | nil => exact absurd rfl hne
  | cons a as ih =>
    obtain ⟨ha, has⟩ := List.forall_mem_cons.mp h
    cases as with
    | nil =>
      rw [List.map_singleton, List.map_singleton, List.intercalate_singleton,
        List.intercalate_singleton]
      exact ha
    | cons b bs =>
      have hlink := ha.link j (ih (List.cons_ne_nil b bs) has)
      rw [List.map_cons, List.map_cons, List.map_cons, List.map_cons, List.intercalate_cons_cons,
        List.intercalate_cons_cons, List.append_assoc, List.append_assoc]
      exact hlink

end Spells

/-! ## What is read of a text that spells tokens -/

theorem not_isRepetition_of_tame {t : Token} (h : Tame t) : Clauses.isRepetition t = false := by
  rw [Clauses.isRepetition, isWord, beq_eq_false_iff_ne]
  rintro rfl
  exact h.2 rfl

theorem countInWords_of_tame {c : Char} (hc : isPlainChar c = false) {ts : List Token}
    (h : ∀ t ∈ ts, Tame t) : countInWords c ts = 0 := by
  induction ts with
  | nil => rfl
  | cons t ts ih =>
    obtain ⟨ht, hts⟩ := List.forall_mem_cons.mp h
    have hone : countInWords c [t] = 0 := by
      cases t with
      | word w =>
        refine List.count_eq_zero.mpr fun hmem => ?_
        rw [ht.1 c hmem] at hc
        cases hc
      | quoted _ _ | time _ | keyword _ _ _ | dot | colon | equals | comma | space => rfl
    rw [← List.singleton_append, countInWords_append, hone, ih hts]

namespace Spells

variable {cs : List Char} {ts : List Token}

theorem trimSpaces_eq (h : Spells cs ts) : trimSpaces ts = ts := by
  obtain ⟨t, ht, hfirst⟩ := h.firstToken
  obtain ⟨u, hu, hlast⟩ := h.lastToken
  refine Text.trimBy_eq_self ?_ ?_
  · rintro a ha
    obtain rfl : t = a := Option.some.inj (ht.symm.trans ha)
    exact hfirst
  · rintro a ha
    obtain rfl : u = a := Option.some.inj (hu.symm.trans ha)
    exact hlast

/-- Nothing of the text is dropped before it is read. -/
theorem trimChars_eq (h : Spells cs ts) : Text.trimChars cs = cs := by
  obtain ⟨c, hc, hfirst⟩ := h.first
  obtain ⟨d, hd, hlast⟩ := h.last
  refine Text.trimBy_eq_self ?_ ?_
  · rintro a ha
    obtain rfl : c = a := Option.some.inj (hc.symm.trans ha)
    exact not_isBlank_of_isSolid hfirst
  · rintro a ha
    obtain rfl : d = a := Option.some.inj (hd.symm.trans ha)
    exact not_isBlank_of_isSolid hlast

theorem dropWhile_eq (h : Spells cs ts) : cs.dropWhile Text.isBlank = cs := by
  obtain ⟨c, hc, hfirst⟩ := h.first
  obtain ⟨after, rfl⟩ := List.head?_eq_some_iff.mp hc
  rw [List.dropWhile_cons_of_neg (by simp [not_isBlank_of_isSolid hfirst])]

theorem not_terminated (h : Spells cs ts) : ¬ Terminated (String.ofList cs) := by
  obtain ⟨d, hd, hlast⟩ := h.last
  rintro ⟨hsemicolon, _⟩
  rw [String.toList_ofList, h.trimChars_eq, hd] at hsemicolon
  obtain rfl : d = ';' := Option.some.inj hsemicolon
  exact absurd hlast (by decide)

theorem not_repetition (h : Spells cs ts) : ts.any Clauses.isRepetition = false :=
  List.any_eq_false.mpr fun t ht => by simp [not_isRepetition_of_tame (h.tame t ht)]

/-- A text that spells tokens with at most one colon is read as them. -/
theorem meaningful (h : Spells cs ts) (hcolons : ts.count colon ≤ 1) :
    Meaningful (String.ofList cs) ts := by
  obtain ⟨c, hc, hfirst⟩ := h.first
  constructor
  · intro hblank
    rw [← String.toList_inj, String.toList_ofList] at hblank
    rw [hblank] at hc
    cases hc
  · rw [Text.isBasicLatin, String.toList_ofList]
    exact h.latin
  · rw [String.toList_ofList, h.escapes]
    rintro ⟨rest, rfl⟩
    obtain rfl : '/' = c := Option.some.inj hc
    exact absurd hfirst (by decide)
  · rw [String.toList_ofList, h.escapes, tokenize_eq_ok_iff, String.toList_ofList]
    refine ⟨h.scan _ 0, ?_, hcolons⟩
    rw [countInWords_of_tame (by decide) h.tame, countInWords_of_tame (by decide) h.tame]

end Spells

/-! ## Names and quoted texts -/

/-- A name of letters, digits, dashes and underscores that means nothing else. -/
structure PlainWord (w : String) : Prop where
  ne_blank : w ≠ ""
  chars : ∀ c ∈ w.toList, isPlainChar c = true
  ne_repetition : w ≠ Vocabulary.repetition
  not_condition : Text.equalsIgnoringCase w Vocabulary.condition = false
  not_generator : Generator.ofWord? w = none

/-- A text that can stand between quotes and in a statement as it is. -/
structure PlainValue (v : String) : Prop where
  latin : Text.isBasicLatin v = true
  oneLine : Text.OneLine v
  not_quote : '"' ∉ v.toList
  not_escape : ¬ ['\\', ';'] <:+: v.toList
  trimmed : Text.trim v = v

instance (w : String) : Decidable (PlainWord w) :=
  decidable_of_iff (w ≠ "" ∧ w.toList.all isPlainChar = true ∧ w ≠ Vocabulary.repetition ∧
      Text.equalsIgnoringCase w Vocabulary.condition = false ∧ Generator.ofWord? w = none)
    ⟨fun ⟨a, b, c, d, e⟩ => ⟨a, List.all_eq_true.mp b, c, d, e⟩,
      fun ⟨a, b, c, d, e⟩ => ⟨a, List.all_eq_true.mpr b, c, d, e⟩⟩

instance (v : String) : Decidable (PlainValue v) :=
  decidable_of_iff (Text.isBasicLatin v = true ∧ Text.OneLine v ∧ '"' ∉ v.toList ∧
      ¬ ['\\', ';'] <:+: v.toList ∧ Text.trim v = v)
    ⟨fun ⟨a, b, c, d, e⟩ => ⟨a, b, c, d, e⟩, fun ⟨a, b, c, d, e⟩ => ⟨a, b, c, d, e⟩⟩

theorem latin_of_isPlainChar {c : Char} (h : isPlainChar c = true) : c.toNat < 128 := by
  rw [isPlainChar, Bool.or_eq_true, Bool.or_eq_true, beq_iff_eq, beq_iff_eq] at h
  rcases h with (halphanum | rfl) | rfl
  · rcases Bool.or_eq_true_iff.mp halphanum with halpha | hdigit
    · rcases Bool.or_eq_true_iff.mp halpha with hupper | hlower
      · have hto : c.val ≤ 'Z'.val := (of_decide_eq_true hupper).2
        exact Nat.lt_of_le_of_lt (UInt32.le_iff_toNat_le.mp hto) (by decide)
      · have hto : c.val ≤ 'z'.val := of_decide_eq_true (Bool.and_eq_true_iff.mp hlower).2
        exact Nat.lt_of_le_of_lt (UInt32.le_iff_toNat_le.mp hto) (by decide)
    · exact Nat.lt_of_le_of_lt (Char.isDigit_iff_toNat.mp hdigit).2 (by decide)
  · decide
  · decide

theorem spells_word {w : String} (hne : w ≠ "") (hchars : ∀ c ∈ w.toList, isPlainChar c = true)
    (hrepetition : w ≠ Vocabulary.repetition) (hgenerator : Generator.ofWord? w = none) :
    Spells w.toList [word w] := by
  have hsolid : ∀ c ∈ w.toList, isSolid c = true := by
    intro c hc
    rw [isSolid, hchars c hc, Bool.true_or]
  have hlist : w.toList ≠ [] := by simpa using hne
  constructor
  · exact List.all_eq_true.mpr fun c hc => decide_eq_true (latin_of_isPlainChar (hchars c hc))
  · exact unescape_eq_self fun h => absurd (hchars _ h) (by decide)
  · intro total ordinal
    exact scan_word hne (fun c hc => isWordChar_of_isPlainChar (hchars c hc)) hgenerator
  · exact ⟨_, List.head?_eq_some_head hlist, hsolid _ (List.head_mem hlist)⟩
  · exact ⟨_, List.getLast?_eq_some_getLast hlist, hsolid _ (List.getLast_mem hlist)⟩
  · exact List.forall_mem_singleton.mpr ⟨hchars, hrepetition⟩
  · exact ⟨word w, rfl, rfl⟩
  · exact ⟨word w, rfl, rfl⟩

theorem PlainWord.spells {w : String} (h : PlainWord w) : Spells w.toList [word w] :=
  spells_word h.ne_blank h.chars h.ne_repetition h.not_generator

theorem unescape_of_not_infix {cs : List Char} (h : ¬ ['\\', ';'] <:+: cs) : unescape cs = cs := by
  induction cs using unescape.induct with
  | case1 cs ih => exact absurd ⟨[], cs, rfl⟩ h
  | case2 c cs hplain ih =>
    rw [unescape, ih fun hcs => h (hcs.trans (List.suffix_cons c cs).isInfix)]
    exact hplain
  | case3 => rfl

def quotedChars (v : String) : List Char := '"' :: (v.toList ++ ['"'])

theorem spells_quoted {v : String} (h : PlainValue v) :
    Spells (quotedChars v) [quoted v '"'] := by
  have hquote : ∀ c ∈ v.toList, (c == '"') = false := by
    intro c hc
    exact beq_eq_false_iff_ne.mpr fun heq => h.not_quote (heq ▸ hc)
  have hline : v.toList.findIdx? isLineBreak = none := List.findIdx?_eq_none_iff.mpr h.oneLine
  constructor
  · have hlatin := h.latin
    rw [Text.isBasicLatin] at hlatin
    rw [quotedChars, List.all_cons, List.all_append, hlatin]
    decide
  · have hbehind : unescape (v.toList ++ ['"']) = v.toList ++ ['"'] := by
      rw [unescape_append (by decide), unescape_of_not_infix h.not_escape]
      rfl
    rw [quotedChars, unescape, hbehind]
    rintro after ⟨⟩
  · intro total ordinal
    have hnext : next total ordinal '"' (v.toList ++ ['"']) = .ok (quoted v '"', []) := by
      rw [next, if_neg (by decide), if_pos (by decide), Text.cutAt_append_sep [] hquote rfl]
      dsimp only
      rw [hline, String.ofList_toList]
    rw [quotedChars, scan_cons hnext, scan_nil]
    rfl
  · exact ⟨'"', rfl, by decide⟩
  · exact ⟨'"', by rw [quotedChars, ← List.cons_append, List.getLast?_concat], by decide⟩
  · exact List.forall_mem_singleton.mpr trivial
  · exact ⟨quoted v '"', rfl, rfl⟩
  · exact ⟨quoted v '"', rfl, rfl⟩

end Statement

end TreeDatabase
