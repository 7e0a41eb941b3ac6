import TreeDatabase.Proofs.Statement.Reading

/-!
# Statements that are admitted

A statement that is read without a fault and that concerns the store satisfies all that its verb
asks for. No name and no value of it spans lines, no name is blank, and no rule is named twice among
the children.
-/

namespace TreeDatabase

open Token

namespace Statement

/-! ## One line -/

/-- No name or value spans lines. -/
structure OneLine (s : Statement) : Prop where
  selectedName : Text.OneLine s.selectedName
  selectedValue : ∀ value, s.selectedValue = some value → Text.OneLine value
  parents : ∀ name ∈ s.parents, Text.OneLine name
  children : ∀ child ∈ s.children, Text.OneLine child.1 ∧ Text.OneLine child.2

end Statement

/-! ## Plain names -/

/-- No tokens with this text are a keyword site. -/
def IsPlainName (name : String) : Prop := ∀ field ts, (∀ t ∈ ts, Token.Lexical t) →
  joinText ts = name → KeywordSite.ofTokens? field ts = none

theorem Text.trimBy_append_dropped {α : Type} (p : α → Bool) (as : List α) :
    ∃ before after, as = before ++ trimBy p as ++ after ∧ (∀ a ∈ before, p a = true) ∧
      ∀ a ∈ after, p a = true := by
  obtain ⟨after, hdrop, hafter⟩ := dropEndWhile_append_dropped p (as.dropWhile p)
  refine ⟨as.takeWhile p, after, ?_, List.all_eq_true.mp List.all_takeWhile, hafter⟩
  rw [List.append_assoc, trimBy, ← hdrop, List.takeWhile_append_dropWhile]

/-- A run of word characters with blanks around it, and perhaps more after a blank, is trimmed to
a text without blanks only when this is the run. -/
theorem Text.eq_of_trimChars {before run after trimmed : List Char} (hne : run ≠ [])
    (hbefore : ∀ c ∈ before, isBlank c = true) (hrun : ∀ c ∈ run, isBlank c = false)
    (hafter : ∀ c ∈ after.head?, isBlank c = true)
    (h : trimChars (before ++ run ++ after) = trimmed)
    (htrimmed : ∀ c ∈ trimmed, isBlank c = false) : run = trimmed := by
  have hdrop : (before ++ run ++ after).dropWhile isBlank = run ++ after := by
    rw [List.append_assoc, List.dropWhile_append_of_pos hbefore]
    cases run with
    | nil => exact absurd rfl hne
    | cons c run => rw [List.cons_append, List.dropWhile_cons_of_neg (by simp [hrun])]
  obtain ⟨blanks, hsplit, hblanks⟩ := dropEndWhile_append_dropped isBlank (run ++ after)
  rw [trimChars, trimBy, hdrop] at h
  rw [h] at hsplit
  rcases List.append_eq_append_iff.mp hsplit with ⟨more, hmore, hrest⟩ | ⟨more, hmore, hrest⟩
  · cases more with
    | nil => rw [hmore, List.append_nil]
    | cons c more =>
      have hc := htrimmed c (by simp [hmore])
      rw [hafter c (by simp [hrest])] at hc
      cases hc
  · cases more with
    | nil => rw [hmore, List.append_nil]
    | cons c more =>
      have hc := hrun c (by simp [hmore])
      rw [hblanks c (by simp [hrest])] at hc
      cases hc

theorem isSpace_iff {t : Token} : t.isSpace = true ↔ t = space := by
  cases t <;> simp [isSpace]

theorem isBlank_of_isSpace {ts : List Token} (h : ∀ t ∈ ts, isSpace t = true) :
    ∀ c ∈ ts.flatMap fun t => t.text.toList, Text.isBlank c = true := by
  intro c hc
  obtain ⟨t, ht, hct⟩ := List.mem_flatMap.mp hc
  rw [isSpace_iff.mp (h t ht), show space.text.toList = [' '] from rfl, List.mem_singleton] at hct
  rw [hct]
  decide

/-- A text without blanks that spells no keyword is plain. -/
theorem isPlainName_of_ofWord? {name : String} (hany : name.toList.any Text.isBlank = false)
    (hword : Generator.ofWord? name = none) : IsPlainName name := by
  intro field ts hlex hjoin
  have hblank : ∀ c ∈ name.toList, Text.isBlank c = false := by
    simpa [List.any_eq_false] using hany
  -- a keyword with nothing or a space after it would have to spell the name
  have hkeyword : ∀ g raw n rest, trimSpaces ts = keyword g raw n :: rest →
      (∀ t ∈ rest.head?, t.isSpace = true) → False := by
    intro g raw n rest htrim hrest
    obtain ⟨before, after, hts, hbefore, hafter⟩ := Text.trimBy_append_dropped isSpace ts
    rw [show Text.trimBy isSpace ts = keyword g raw n :: rest from htrim] at hts
    obtain ⟨hg, hne, hraw⟩ := hlex (keyword g raw n) (by rw [hts]; simp)
    have htext : Text.trimChars ((before.flatMap fun t => t.text.toList) ++ raw.toList ++
        ((rest ++ after).flatMap fun t => t.text.toList)) = name.toList := by
      rw [← hjoin, joinText, hts]
      simp [Token.text]
    have hhead : ∀ t ∈ (rest ++ after).head?, t.isSpace = true := by
      cases rest with
      | nil => exact fun t ht => hafter t (List.mem_of_mem_head? ht)
      | cons t rest => exact hrest
    have hnext : ∀ c ∈ ((rest ++ after).flatMap fun t => t.text.toList).head?,
        Text.isBlank c = true := by
      cases hall : rest ++ after with
      | nil => simp
      | cons t us =>
        rw [hall] at hhead
        have ht := isSpace_iff.mp (hhead t rfl)
        intro c hc
        rw [List.flatMap_cons, ht, show space.text.toList = [' '] from rfl] at hc
        cases hc
        decide
    have heq := Text.eq_of_trimChars hne (isBlank_of_isSpace hbefore)
      (fun c hc => not_isBlank_of_isWordChar (hraw c hc)) hnext htext hblank
    rw [String.toList_inj.mp heq, hword] at hg
    cases hg
  unfold KeywordSite.ofTokens?
  split
  · next g raw n htrim => exact (hkeyword g raw n [] htrim (by simp)).elim
  · next g raw n parameter htrim =>
    exact (hkeyword g raw n [space, parameter] htrim (by simp [isSpace])).elim
  · rfl

theorem isPlainName_kind (kind : RuleKind) : IsPlainName kind.name := by
  cases kind
  all_goals exact isPlainName_of_ofWord? (by decide) (by decide)

/-! ## Children -/

namespace Children

theorem oneLine_ofItems {items : List (List Token)} (h : ∀ item ∈ items, ∀ t ∈ item, t.Lexical)
    (index : Nat) (plain : List String) : ∀ entry ∈ (ofItems index plain items).entries,
      Text.OneLine entry.1 ∧ Text.OneLine entry.2 := by
  induction items generalizing index plain with
  | nil => simp [ofItems]
  | cons item items ih =>
    have hitem := h item List.mem_cons_self
    rw [ofItems]
    intro entry hentry
    rcases List.mem_cons.mp hentry with rfl | hentry
    · constructor
      · exact oneLine_joinText fun t ht => hitem t (Text.mem_of_mem_cutAt_fst ht)
      · cases hvalue : (Text.cutAt (· == equals) item).2 with
        | none => exact Text.oneLine_blank
        | some value =>
          exact oneLine_joinText fun t ht => hitem t (Text.mem_of_mem_cutAt_snd hvalue ht)
    · exact ih (fun i hi => h i (List.mem_cons_of_mem _ hi)) _ _ entry hentry

theorem ne_blank_of_ofItems {items : List (List Token)} {index : Nat} {plain : List String}
    (h : (ofItems index plain items).faults = []) :
    ∀ entry ∈ (ofItems index plain items).entries, entry.1 ≠ "" := by
  induction items generalizing index plain with
  | nil => simp [ofItems]
  | cons item items ih =>
    rw [ofItems] at h ⊢
    simp only [List.append_eq_nil_iff, ite_eq_right_iff, List.cons_ne_nil, imp_false] at h
    intro entry hentry
    rcases List.mem_cons.mp hentry with rfl | hentry
    · exact h.1.1
    · exact ih h.2 entry hentry

/-- A name that no keyword fills occurs at most once. -/
theorem count_ofItems {name : String} (hname : IsPlainName name) {items : List (List Token)}
    (hlex : ∀ item ∈ items, ∀ t ∈ item, t.Lexical) {index : Nat} {plain : List String}
    (h : (ofItems index plain items).faults = []) :
    ((ofItems index plain items).entries.map Prod.fst).count name ≤ 1 ∧
      (name ∈ plain → ((ofItems index plain items).entries.map Prod.fst).count name = 0) := by
  induction items generalizing index plain with
  | nil => simp [ofItems]
  | cons item items ih =>
    rw [ofItems] at h ⊢
    simp only [List.append_eq_nil_iff, ite_eq_right_iff, List.cons_ne_nil, imp_false] at h
    obtain ⟨⟨_, hrepeated⟩, hrest⟩ := h
    obtain ⟨hle, hzero⟩ := ih (fun i hi => hlex i (List.mem_cons_of_mem _ hi)) hrest
    simp only [List.map_cons, List.count_cons]
    by_cases he : joinText (Text.cutAt (· == equals) item).1 = name
    · have hsite := hname (.childName index) _ (fun t ht =>
        hlex item List.mem_cons_self t (Text.mem_of_mem_cutAt_fst ht)) he
      simp only [hsite, Option.isNone_none, ↓reduceIte, he, Bool.true_and, List.contains_iff_mem,
        beq_self_eq_true] at hrepeated hzero ⊢
      rw [hzero (by simp)]
      exact ⟨Nat.le_refl _, fun hp => absurd hp hrepeated⟩
    · simp only [beq_iff_eq, he, ↓reduceIte, Nat.add_zero]
      refine ⟨hle, fun hp => hzero ?_⟩
      split
      · exact List.mem_append_left _ hp
      · exact hp

end Children

/-! ## Arguments -/

namespace Argument

/-- What holds of an argument that was read from tokens. -/
structure Sound (a : Argument) : Prop where
  selectedName : Text.OneLine a.selectedName
  selectedValue : ∀ value, a.selectedValue = some value → Text.OneLine value
  parents : ∀ name ∈ a.parents, Text.OneLine name
  children : ∀ child ∈ a.children.entries, Text.OneLine child.1 ∧ Text.OneLine child.2
  pathNames : a.faults = [] → a.parents ≠ [] → "" ∉ a.parents ++ [a.selectedName]
  childNames : a.children.faults = [] → ∀ child ∈ a.children.entries, child.1 ≠ ""
  count_plain : a.children.faults = [] → ∀ name, IsPlainName name →
    (a.children.entries.map Prod.fst).count name ≤ 1

/-- The names of the path at the start of an argument. -/
def pathNames (ts : List Token) : List String :=
  (Text.pieces (· == dot) (Text.cutAt (· == equals) (Text.cutAt (· == colon) ts).1).1).map joinText

theorem hierarchy_ofTokens (ts : List Token) :
    (ofTokens ts).parents ++ [(ofTokens ts).selectedName] = pathNames ts := by
  have hne : pathNames ts ≠ [] := by
    simpa [pathNames] using Text.pieces_ne_nil _ _
  change (pathNames ts).dropLast ++ [(pathNames ts).getLast?.getD ""] = pathNames ts
  rw [List.getLast?_eq_some_getLast hne, Option.getD_some, List.dropLast_concat_getLast]

theorem oneLine_pathNames {ts : List Token} (h : ∀ t ∈ ts, t.Lexical) :
    ∀ name ∈ pathNames ts, Text.OneLine name := by
  intro name hname
  obtain ⟨piece, hpiece, rfl⟩ := List.mem_map.mp hname
  refine oneLine_joinText fun t ht => h t ?_
  exact Text.mem_of_mem_cutAt_fst (Text.mem_of_mem_cutAt_fst (Text.mem_of_mem_pieces hpiece ht))

theorem sound_ofTokens {ts : List Token} (h : ∀ t ∈ ts, t.Lexical) : Sound (ofTokens ts) := by
  have hitems : ∀ rest, (Text.cutAt (· == colon) ts).2 = some rest →
      ∀ item ∈ ((Text.pieces (· == comma) rest).map trimSpaces).filter (· ≠ []),
        ∀ t ∈ item, t.Lexical := by
    intro rest hrest item hitem t ht
    obtain ⟨piece, hpiece, rfl⟩ := List.mem_map.mp (List.mem_filter.mp hitem).1
    exact h t (Text.mem_of_mem_cutAt_snd hrest
      (Text.mem_of_mem_pieces hpiece (Text.mem_of_mem_trimBy ht)))
  have hsplit := hierarchy_ofTokens ts
  refine ⟨?_, ?_, ?_, ?_, ?_, ?_, ?_⟩
  · exact oneLine_pathNames h _ (hsplit ▸ by simp)
  · intro value hvalue
    simp only [ofTokens, Option.map_eq_some_iff] at hvalue
    obtain ⟨rest, hrest, rfl⟩ := hvalue
    exact oneLine_joinText fun t ht =>
      h t (Text.mem_of_mem_cutAt_fst (Text.mem_of_mem_cutAt_snd hrest ht))
  · intro name hname
    exact oneLine_pathNames h name (hsplit ▸ by simp [hname])
  · simp only [ofTokens]
    cases hrest : (Text.cutAt (· == colon) ts).2 with
    | none => simp
    | some rest => exact Children.oneLine_ofItems (hitems rest hrest) 0 []
  · intro hfaults hparents hmem
    have hlen := congrArg List.length hsplit
    rw [List.length_append, List.length_singleton] at hlen
    have hpos := List.length_pos_iff.mpr hparents
    rw [hsplit] at hmem
    have hboth : 1 < (pathNames ts).length ∧ (pathNames ts).contains "" = true :=
      ⟨by omega, List.contains_iff_mem.mpr hmem⟩
    change (if 1 < (pathNames ts).length ∧ (pathNames ts).contains "" = true then _ else _) = _
      at hfaults
    rw [if_pos hboth] at hfaults
    cases hfaults
  · simp only [ofTokens]
    cases hrest : (Text.cutAt (· == colon) ts).2 with
    | none => simp
    | some rest => exact fun hfaults => Children.ne_blank_of_ofItems hfaults
  · simp only [ofTokens]
    cases hrest : (Text.cutAt (· == colon) ts).2 with
    | none => simp
    | some rest =>
      exact fun hfaults name hname => (Children.count_ofItems hname (hitems rest hrest) hfaults).1

end Argument

/-! ## Whole statements -/

namespace Statement

/-- What holds of a statement that is executed on the store. -/
structure Admitted (s : Statement) : Prop where
  oneLine : s.OneLine
  verb : s.verb ∈ [.read, .write, .delete, .rename, .enforce]
  pathFaults : s.pathFaults = []
  argumentFaults : s.argumentFaults = []
  hasValidNames : s.hasValidNames = true
  verbFaults : s.verbFaults = []
  /-- A write below the rule node is a definition of rules, and no other statement is one. -/
  beginsAtRules : s.verb = .write ∨ s.verb = .enforce →
    (s.beginsAtRules = true ↔ s.verb = .enforce)
  pathNames : s.parents ≠ [] → "" ∉ s.hierarchy
  childNames : ∀ child ∈ s.children, child.1 ≠ ""
  count_kind : ∀ kind : RuleKind, s.childNames.count kind.name ≤ 1

/-- What has to hold before the checks at the end of reading. -/
structure Readable (s : Statement) : Prop where
  oneLine : s.OneLine
  verb : s.verb ∈ [.read, .write, .delete, .rename]
  pathNames : s.parents ≠ [] → "" ∉ s.hierarchy
  childNames : ∀ child ∈ s.children, child.1 ≠ ""
  count_kind : ∀ kind : RuleKind, s.childNames.count kind.name ≤ 1

theorem Readable.admitted {s : Statement} (hs : s.Readable) (h : s.validate.verb ≠ .error) :
    s.validate.Admitted := by
  obtain ⟨heq, hpath, hargument, hnames, hverb⟩ := validate_of_ne_error h
  have hold := hs.verb
  rw [heq]
  rcases s.retarget_cases with ⟨hwrite, hbegins, hr⟩ | ⟨hother, hr⟩
  · have hsettle : s.retarget.settleSites = { s with verb := .enforce, sites := [] } := by
      rw [hr, settleSites, if_pos (.inr rfl)]
    rw [hr] at hargument hnames hverb
    rw [hsettle]
    refine ⟨⟨hs.oneLine.1, hs.oneLine.2, hs.oneLine.3, hs.oneLine.4⟩, by simp, hpath, hargument,
      hnames, hverb, ?_, hs.pathNames, hs.childNames, hs.count_kind⟩
    intro _
    exact ⟨fun _ => rfl, fun _ => hbegins⟩
  · rw [hr] at hargument hnames hverb ⊢
    have hne : s.verb ≠ .enforce := by
      intro he
      rw [he] at hold
      revert hold
      decide
    have hmem : s.verb ∈ [Verb.read, .write, .delete, .rename, .enforce] := by
      have hsub :
          [Verb.read, .write, .delete, .rename] ⊆ [.read, .write, .delete, .rename, .enforce] := by
        decide
      exact hsub hold
    have hbegins : s.verb = .write ∨ s.verb = .enforce →
        (s.beginsAtRules = true ↔ s.verb = .enforce) := by
      rintro (hw | he)
      · exact ⟨fun hb => absurd ⟨hw, hb⟩ hother, fun he => absurd he hne⟩
      · exact absurd he hne
    rw [settleSites]
    split
    · exact ⟨⟨hs.oneLine.1, hs.oneLine.2, hs.oneLine.3, hs.oneLine.4⟩, hmem, hpath, hargument,
        hnames, hverb, hbegins, hs.pathNames, hs.childNames, hs.count_kind⟩
    · exact ⟨hs.oneLine, hmem, hpath, hargument, hnames, hverb, hbegins, hs.pathNames,
        hs.childNames, hs.count_kind⟩

theorem readable_ofParts {text : String} {n : Nat} {clauses : Clauses} {filter : Filter}
    (hverb : clauses.verb ∈ [.read, .write, .delete, .rename])
    (ha : (Argument.ofTokens clauses.argument).Sound)
    (hfaults : (Argument.ofTokens clauses.argument).faults = [])
    (hchildren : (Argument.ofTokens clauses.argument).children.faults = []) :
    (ofParts text n clauses filter).Readable :=
  ⟨⟨ha.selectedName, ha.selectedValue, ha.parents, ha.children⟩, hverb, ha.pathNames hfaults,
    ha.childNames hchildren,
    fun kind => ha.count_plain hchildren kind.name (isPlainName_kind kind)⟩

/-- A statement whose parts are read and checked without a fault is admitted. -/
theorem admitted_ofParts {text : String} {n : Nat} {clauses : Clauses} {filter : Filter}
    (hdivides : Divides text n clauses) (hverb : clauses.verb.isBare = false)
    (hfaults : (Argument.ofTokens clauses.argument).faults = [])
    (hchildren : (Argument.ofTokens clauses.argument).children.faults = [])
    (h : (ofParts text n clauses filter).validate.verb ≠ .error) :
    (ofParts text n clauses filter).validate.Admitted := by
  have hdata : clauses.verb ∈ [Verb.read, .write, .delete, .rename] := by
    have hmem := hdivides.verb
    revert hmem hverb
    cases clauses.verb <;> decide
  have hsound := Argument.sound_ofTokens hdivides.lexical
  exact (readable_ofParts hdata hsound hfaults hchildren).admitted h

/-- Every text is a statement with faults, one that does not concern the store, or one that is
admitted. -/
theorem parse_cases (text : String) : (parse text).verb = .error ∨ (parse text).verb = .comment ∨
    (parse text).verb.isBare = true ∨ (parse text).Admitted := by
  by_cases herror : (parse text).verb = .error
  · exact .inl herror
  · right
    have hreading := reading_parse herror
    generalize parse text = s at herror hreading
    cases hreading with
    | comment => exact .inl rfl
    | bare _ hbare => exact .inr (.inl hbare)
    | data hdivides hverb hfaults hchildren filter =>
      exact .inr (.inr (admitted_ofParts hdivides hverb hfaults hchildren herror))

end Statement

end TreeDatabase
