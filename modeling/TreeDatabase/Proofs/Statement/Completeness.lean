import TreeDatabase.Proofs.Statement.Phrase

/-!
# Reading phrases

The tokens of a phrase are divided at its own joints, whatever the quoted texts in it hold, and
make up the statement that has its parts.
-/

namespace TreeDatabase

open Token

/-! ## Names and values of tokens -/

namespace Token

theorem trimSpaces_append_space (ts : List Token) : trimSpaces (ts ++ [space]) = trimSpaces ts :=
  Text.trimBy_append_of_all ts (by simp [isSpace])

theorem joinText_append_space (ts : List Token) : joinText (ts ++ [space]) = joinText ts := by
  rw [joinText, joinText, List.flatMap_append]
  exact congrArg String.ofList (Text.trimBy_append_of_all _ (List.forall_mem_singleton.mpr rfl))

theorem joinText_singleton {t : Token} (h : Text.trim t.text = t.text) : joinText [t] = t.text := by
  rw [joinText, List.flatMap_singleton]
  exact h

end Token

/-- No keyword site is made of tokens without a keyword. -/
theorem KeywordSite.ofTokens?_eq_none {field : Field} {ts : List Token}
    (h : ∀ t ∈ ts, Statement.Tame t) : KeywordSite.ofTokens? field ts = none := by
  have hkeyword : ∀ {g raw n rest}, trimSpaces ts ≠ keyword g raw n :: rest := by
    intro g raw n rest heq
    exact h (keyword g raw n) (Text.mem_of_mem_trimBy (heq ▸ List.mem_cons_self))
  unfold KeywordSite.ofTokens?
  split
  · next heq => exact absurd heq hkeyword
  · next heq => exact absurd heq hkeyword
  · rfl

namespace Phrase

open Statement

theorem trim_word {w : String} (h : ∀ c ∈ w.toList, isPlainChar c = true) : Text.trim w = w := by
  have hblank : ∀ c ∈ w.toList, Text.isBlank c = false := fun c hc =>
    not_isBlank_of_isWordChar (isWordChar_of_isPlainChar (h c hc))
  rw [← String.toList_inj, Text.toList_trim]
  exact Text.trimBy_eq_self (fun c hc => hblank c (List.mem_of_head? hc))
    fun c hc => hblank c (List.mem_of_getLast? hc)

theorem joinText_word {w : String} (h : PlainWord w) : joinText [word w] = w :=
  joinText_singleton (trim_word h.chars)

theorem joinText_quoted {v : String} (h : PlainValue v) : joinText [quoted v '"'] = v :=
  joinText_singleton h.trimmed

/-! ## Values behind an equals sign -/

/-- What stands in front of an equals sign, and what stands behind it. -/
theorem cutAt_append_value {ts : List Token} (h : ∀ t ∈ ts, (t == equals) = false)
    (value : Option String) : Text.cutAt (· == equals) (ts ++ valueTokens value) =
      (ts ++ (value.map fun _ => space).toList, value.map fun v => [space, quoted v '"']) := by
  cases value with
  | none =>
    rw [valueTokens, List.append_nil, Text.cutAt_of_not_sep h]
    simp
  | some v =>
    have hfront : ∀ t ∈ ts ++ [space], (t == equals) = false := by
      intro t ht
      rcases List.mem_append.mp ht with ht | ht
      · exact h t ht
      · rw [List.mem_singleton.mp ht]
        rfl
    have hwhole : ts ++ valueTokens (some v) =
        (ts ++ [space]) ++ equals :: [space, quoted v '"'] := by
      rw [List.append_assoc]
      rfl
    rw [hwhole, Text.cutAt_append_sep _ hfront rfl]
    rfl

theorem joinText_front (ts : List Token) (value : Option String) :
    joinText (ts ++ (value.map fun _ => space).toList) = joinText ts := by
  cases value with
  | none => exact congrArg joinText (List.append_nil ts)
  | some v => exact joinText_append_space ts

theorem trimSpaces_front (ts : List Token) (value : Option String) :
    trimSpaces (ts ++ (value.map fun _ => space).toList) = trimSpaces ts := by
  cases value with
  | none => exact congrArg trimSpaces (List.append_nil ts)
  | some v => exact trimSpaces_append_space ts

theorem tame_front {ts : List Token} (h : ∀ t ∈ ts, Tame t) (value : Option String) :
    ∀ t ∈ ts ++ (value.map fun _ => space).toList, Tame t := by
  intro t ht
  rcases List.mem_append.mp ht with ht | ht
  · exact h t ht
  · cases value with
    | none => cases ht
    | some v =>
      rw [List.mem_singleton.mp ht]
      trivial

theorem joinText_value {value : Option String} (h : ∀ v ∈ value, PlainValue v) :
    (value.map fun v => [space, quoted v '"']).map joinText = value := by
  cases value with
  | none => rfl
  | some v => exact congrArg some (joinText_quoted (h v rfl))

theorem site_value (value : Option String) (field : Field) :
    (value.map fun v => [space, quoted v '"']).bind (KeywordSite.ofTokens? field) = none := by
  cases value with
  | none => rfl
  | some v =>
    change KeywordSite.ofTokens? field [space, quoted v '"'] = none
    exact KeywordSite.ofTokens?_eq_none (by simp [Tame])

theorem tame_word {w : String} (h : PlainWord w) : Tame (word w) := ⟨h.chars, h.ne_repetition⟩

/-! ## Items -/

theorem cutAt_itemTokens (item : String × Option String) :
    Text.cutAt (· == equals) (itemTokens item) =
      ([word item.1] ++ (item.2.map fun _ => space).toList,
        item.2.map fun v => [space, quoted v '"']) :=
  cutAt_append_value (List.forall_mem_singleton.mpr rfl) item.2

theorem trimSpaces_itemTokens (item : String × Option String) :
    trimSpaces (itemTokens item) = itemTokens item := by
  obtain ⟨name, value⟩ := item
  cases value <;> rfl

theorem ne_comma_of_mem_itemTokens {item : String × Option String} :
    ∀ t ∈ itemTokens item, (t == comma) = false := by
  obtain ⟨name, value⟩ := item
  cases value <;> simp [itemTokens, valueTokens]

/-- The items of a list are what stands between its commas, but for blanks in front of it. -/
theorem pieces_listTokens {items : List (String × Option String)} (hne : items ≠ [])
    (before : List Token) (hbefore : ∀ t ∈ before, t = space) :
    (Text.pieces (· == comma) (before ++ listTokens items)).map trimSpaces =
      items.map itemTokens := by
  have hcomma : ∀ (before : List Token) (item : String × Option String),
      (∀ t ∈ before, t = space) → ∀ t ∈ before ++ itemTokens item, (t == comma) = false := by
    intro before item hbefore t ht
    rcases List.mem_append.mp ht with ht | ht
    · rw [hbefore t ht]
      rfl
    · exact ne_comma_of_mem_itemTokens t ht
  have htrim : ∀ (before : List Token) (item : String × Option String),
      (∀ t ∈ before, t = space) → trimSpaces (before ++ itemTokens item) = itemTokens item := by
    intro before item hbefore
    rw [trimSpaces, Text.trimBy, List.dropWhile_append_of_pos]
    · exact trimSpaces_itemTokens item
    · intro t ht
      rw [hbefore t ht]
      rfl
  induction items generalizing before with
  | nil => exact absurd rfl hne
  | cons item items ih =>
    cases items with
    | nil =>
      rw [listTokens, List.map_singleton, List.intercalate_singleton,
        Text.pieces_of_not_sep (hcomma before item hbefore), List.map_singleton,
        htrim before item hbefore]
    | cons next items =>
      have hlist : before ++ listTokens (item :: next :: items) =
          (before ++ itemTokens item) ++ comma :: ([space] ++ listTokens (next :: items)) := by
        simp only [listTokens, List.map_cons, List.intercalate_cons_cons, List.append_assoc]
        rfl
      rw [hlist, Text.pieces_append_sep _ (hcomma before item hbefore) rfl, List.map_cons,
        htrim before item hbefore, ih (List.cons_ne_nil next items) [space] (by simp)]
      rfl

/-! ## Children -/

theorem ofItems_children {children : List (String × Option String)}
    (hnames : ∀ child ∈ children, PlainWord child.1)
    (hvalues : ∀ child ∈ children, ∀ v ∈ child.2, PlainValue v)
    (hdistinct : (children.map Prod.fst).Nodup) (index : Nat) (plain : List String)
    (hplain : ∀ child ∈ children, child.1 ∉ plain) :
    Children.ofItems index plain (children.map itemTokens) =
      { entries := children.map fun child => (child.1, child.2.getD "") } := by
  induction children generalizing index plain with
  | nil => rfl
  | cons child children ih =>
    obtain ⟨hname, hnames⟩ := List.forall_mem_cons.mp hnames
    obtain ⟨hvalue, hvalues⟩ := List.forall_mem_cons.mp hvalues
    obtain ⟨hfresh, hdistinct⟩ := List.nodup_cons.mp hdistinct
    obtain ⟨hnew, hplain⟩ := List.forall_mem_cons.mp hplain
    have hsite : KeywordSite.ofTokens? (.childName index)
        ([word child.1] ++ (child.2.map fun _ => space).toList) = none :=
      KeywordSite.ofTokens?_eq_none
        (tame_front (List.forall_mem_singleton.mpr (tame_word hname)) child.2)
    have hrest : ∀ other ∈ children, other.1 ∉ plain ++ [child.1] := by
      intro other hother hmem
      rcases List.mem_append.mp hmem with hmem | hmem
      · exact hplain other hother hmem
      · exact hfresh (List.mem_map.mpr ⟨other, hother, List.mem_singleton.mp hmem⟩)
    rw [List.map_cons, Children.ofItems, cutAt_itemTokens]
    dsimp only
    rw [hsite, joinText_front, joinText_word hname, joinText_value hvalue, site_value]
    dsimp only [Option.isNone_none, if_true]
    rw [if_pos rfl, ih hnames hvalues hdistinct (index + 1) (plain ++ [child.1]) hrest,
      if_neg hname.ne_blank]
    simp [hnew]

theorem children_listTokens {children : List (String × Option String)} (hne : children ≠ [])
    (hnames : ∀ child ∈ children, PlainWord child.1)
    (hvalues : ∀ child ∈ children, ∀ v ∈ child.2, PlainValue v)
    (hdistinct : (children.map Prod.fst).Nodup) :
    Children.ofTokens (space :: listTokens children) =
      { entries := children.map fun child => (child.1, child.2.getD "") } := by
  have hpieces : (Text.pieces (· == comma) (space :: listTokens children)).map trimSpaces =
      children.map itemTokens :=
    pieces_listTokens hne [space] (by simp)
  have hall : (children.map itemTokens).filter (· ≠ []) = children.map itemTokens := by
    rw [List.filter_eq_self, List.forall_mem_map]
    exact fun child _ => by simp [itemTokens]
  rw [Children.ofTokens, hpieces, hall]
  exact ofItems_children hnames hvalues hdistinct 0 [] (by simp)

/-! ## The condition -/

theorem readItem?_itemTokens {item : String × Option String} (hfield : PlainWord item.1)
    (hdash : '-' ∉ item.1.toList) (hvalue : ∀ v ∈ item.2, PlainValue v) :
    Condition.readItem? (itemTokens item) = some item := by
  have hidentifier : (word item.1).isIdentifier = true := by
    rw [isIdentifier, List.all_eq_true]
    intro c hc
    have hplain := hfield.chars c hc
    rw [isPlainChar, Bool.or_assoc, Bool.or_left_comm, Bool.or_eq_true, beq_iff_eq] at hplain
    exact hplain.resolve_left fun heq => hdash (heq ▸ hc)
  have hname : trimSpaces [word item.1] = [word item.1] := rfl
  rw [Condition.readItem?, cutAt_itemTokens]
  dsimp only
  rw [trimSpaces_front, hname, if_pos ⟨by simp, by simp [Condition.isFieldToken, hidentifier]⟩,
    joinText_word hfield]
  obtain ⟨name, value⟩ := item
  cases value with
  | none => rfl
  | some v =>
    have htrim : trimSpaces [space, quoted v '"'] = [quoted v '"'] := rfl
    dsimp only [Option.map_some]
    rw [htrim]
    exact (if_pos ⟨by simp, rfl⟩).trans (by rw [joinText_quoted (hvalue v rfl)])

theorem withCondition_listTokens {items : List (String × Option String)} (hne : items ≠ [])
    (hfields : ∀ item ∈ items, PlainWord item.1 ∧ '-' ∉ item.1.toList)
    (hvalues : ∀ item ∈ items, ∀ v ∈ item.2, PlainValue v) (s : Statement) :
    s.withCondition (listTokens items) =
      { s with filter := items.foldl (fun filter item => filter.add item.1 item.2) s.filter } := by
  have hpieces : (Text.pieces (· == comma) (listTokens items)).map trimSpaces =
      items.map itemTokens :=
    pieces_listTokens hne [] (by simp)
  obtain ⟨t, hfirst, _⟩ :=
    (spells_list hne (fun item hitem => (hfields item hitem).1) hvalues).firstToken
  have hlist : listTokens items ≠ [] := by
    intro hnil
    rw [hnil] at hfirst
    cases hfirst
  rw [withCondition, if_neg hlist, hpieces, List.foldl_map]
  clear hpieces hlist hfirst hne
  induction items generalizing s with
  | nil => rfl
  | cons item items ih =>
    obtain ⟨⟨hfield, hdash⟩, hfields⟩ := List.forall_mem_cons.mp hfields
    obtain ⟨hvalue, hvalues⟩ := List.forall_mem_cons.mp hvalues
    rw [List.foldl_cons, List.foldl_cons, Condition.addItem,
      readItem?_itemTokens hfield hdash hvalue]
    exact ih hfields hvalues _

/-! ## The argument -/

theorem pieces_pathTokens {names : List String} (hne : names ≠ [])
    (hnames : ∀ name ∈ names, PlainWord name) (value : Option String) :
    (Text.pieces (· == dot) (pathTokens names ++ (value.map fun _ => space).toList)).map joinText =
      names := by
  induction names with
  | nil => exact absurd rfl hne
  | cons name names ih =>
    obtain ⟨hname, hnames⟩ := List.forall_mem_cons.mp hnames
    cases names with
    | nil =>
      have hdot : ∀ t ∈ [word name] ++ (value.map fun _ => space).toList, (t == dot) = false := by
        cases value <;> simp
      rw [pathTokens, List.map_singleton, List.intercalate_singleton, Text.pieces_of_not_sep hdot,
        List.map_singleton, joinText_front, joinText_word hname]
    | cons next names =>
      have hpath : pathTokens (name :: next :: names) ++ (value.map fun _ => space).toList =
          [word name] ++ dot :: (pathTokens (next :: names) ++
            (value.map fun _ => space).toList) := by
        simp only [pathTokens, List.map_cons, List.intercalate_cons_cons, List.append_assoc]
        rfl
      rw [hpath, Text.pieces_append_sep _ (List.forall_mem_singleton.mpr rfl) rfl, List.map_cons,
        joinText_word hname, ih (List.cons_ne_nil next names) hnames]

variable {p : Phrase}

theorem forall_pathTokens {P : Token → Prop} (hdot : P dot) {names : List String}
    (hword : ∀ name ∈ names, P (word name)) : ∀ t ∈ pathTokens names, P t := by
  refine Text.forall_mem_intercalate (List.forall_mem_singleton.mpr hdot) ?_
  rw [List.forall_mem_map]
  exact fun name hname => List.forall_mem_singleton.mpr (hword name hname)

theorem forall_valueTokens {P : Token → Prop} (hspace : P space) (hequals : P equals)
    (hquoted : ∀ v, P (quoted v '"')) (value : Option String) :
    ∀ t ∈ valueTokens value, P t := by
  cases value with
  | none => simp [valueTokens]
  | some v => simp [valueTokens, hspace, hequals, hquoted]

theorem forall_listTokens {P : Token → Prop} (hcomma : P comma) (hspace : P space)
    (hequals : P equals) (hquoted : ∀ v, P (quoted v '"'))
    {items : List (String × Option String)} (hword : ∀ item ∈ items, P (word item.1)) :
    ∀ t ∈ listTokens items, P t := by
  refine Text.forall_mem_intercalate (by simp [hcomma, hspace]) ?_
  rw [List.forall_mem_map]
  intro item hitem
  exact List.forall_mem_cons.mpr
    ⟨hword item hitem, forall_valueTokens hspace hequals hquoted item.2⟩

theorem cutAt_argumentTokens (p : Phrase) : Text.cutAt (· == colon) p.argumentTokens =
    (pathTokens p.hierarchy ++ valueTokens p.value,
      if p.children = [] then none else some (space :: listTokens p.children)) := by
  have hpath : ∀ t ∈ pathTokens p.hierarchy, (t == colon) = false :=
    forall_pathTokens (P := fun t => (t == colon) = false) rfl fun _ _ => rfl
  have hvalue : ∀ t ∈ valueTokens p.value, (t == colon) = false :=
    forall_valueTokens (P := fun t => (t == colon) = false) rfl rfl (fun _ => rfl) p.value
  have hhead : ∀ t ∈ pathTokens p.hierarchy ++ valueTokens p.value, (t == colon) = false :=
    fun t ht => (List.mem_append.mp ht).elim (hpath t) (hvalue t)
  rw [argumentTokens]
  split
  · rw [List.append_nil, Text.cutAt_of_not_sep hhead]
  · exact Text.cutAt_append_sep _ hhead rfl

/-- The argument that the tokens of a phrase make up. -/
theorem WellFormed.argument (h : p.WellFormed) : Argument.ofTokens p.argumentTokens =
    { parents := p.parents
      selectedName := p.name
      selectedValue := p.value
      children := { entries := p.children.map fun child => (child.1, child.2.getD "") }
      nameSite := none
      valueSite := none
      faults := [] } := by
  have hpath : ∀ t ∈ pathTokens p.hierarchy, (t == equals) = false :=
    forall_pathTokens (P := fun t => (t == equals) = false) rfl fun _ _ => rfl
  have htame : ∀ t ∈ pathTokens p.hierarchy, Tame t :=
    forall_pathTokens trivial fun name hname => tame_word (h.names name hname)
  have hsite : KeywordSite.ofTokens? .selectedName (Text.afterLast (· == dot)
      (pathTokens p.hierarchy ++ (p.value.map fun _ => space).toList)) = none :=
    KeywordSite.ofTokens?_eq_none fun t ht =>
      tame_front htame p.value t ((Text.sublist_afterLast _ _).subset ht)
  have hnamed : ¬ (1 < p.hierarchy.length ∧ p.hierarchy.contains "" = true) := by
    rintro ⟨_, hblank⟩
    exact (h.names "" (List.contains_iff_mem.mp hblank)).ne_blank rfl
  have hchildren : ((if p.children = [] then none
      else some (space :: listTokens p.children)).map Children.ofTokens).getD {} =
      { entries := p.children.map fun child => (child.1, child.2.getD "") } := by
    split
    · next hnil => rw [hnil]; rfl
    · next hne => exact children_listTokens hne h.childNames h.childValues h.distinct
  rw [Argument.ofTokens, cutAt_argumentTokens]
  dsimp only
  rw [cutAt_append_value hpath]
  dsimp only
  rw [pieces_pathTokens p.hierarchy_ne_nil h.names, joinText_value h.value, hsite, site_value,
    if_neg hnamed, hchildren, hierarchy, List.dropLast_concat, List.getLast?_concat]
  rfl

/-! ## The clauses -/

theorem ofPhrase?_name {verb : Verb} (h : verb = .read ∨ verb = .write ∨ verb = .delete) :
    Verb.ofPhrase? verb.name = some verb := by
  rcases h with rfl | rfl | rfl <;> decide

theorem WellFormed.not_bare (h : p.WellFormed) : p.verb.isBare = false := by
  rcases h.verb with hverb | hverb | hverb <;> rw [hverb] <;> rfl

theorem WellFormed.not_isCondition (h : p.WellFormed) :
    ∀ t ∈ p.argumentTokens, Clauses.isCondition t = false := by
  have hpath : ∀ t ∈ pathTokens p.hierarchy, Clauses.isCondition t = false :=
    forall_pathTokens (P := fun t => Clauses.isCondition t = false) rfl
      fun name hname => (h.names name hname).not_condition
  have hvalue : ∀ t ∈ valueTokens p.value, Clauses.isCondition t = false :=
    forall_valueTokens (P := fun t => Clauses.isCondition t = false) rfl rfl (fun _ => rfl) p.value
  have hlist : ∀ t ∈ listTokens p.children, Clauses.isCondition t = false :=
    forall_listTokens (P := fun t => Clauses.isCondition t = false) rfl rfl rfl (fun _ => rfl)
      fun child hchild => (h.childNames child hchild).not_condition
  intro t ht
  rw [argumentTokens] at ht
  rcases List.mem_append.mp ht with ht | ht
  · exact (List.mem_append.mp ht).elim (hpath t) (hvalue t)
  · split at ht
    · cases ht
    · rcases List.mem_cons.mp ht with rfl | ht
      · rfl
      · rcases List.mem_cons.mp ht with rfl | ht
        · rfl
        · exact hlist t ht

/-- The clauses that the tokens of a phrase are divided into. -/
theorem WellFormed.clauses (h : p.WellFormed) : Clauses.ofTokens? p.tokens =
    some ⟨p.verb, p.argumentTokens,
      if p.conditions = [] then none else some (listTokens p.conditions)⟩ := by
  have hrest : trimSpaces (space :: (p.argumentTokens ++ p.conditionTokens)) =
      p.argumentTokens ++ p.conditionTokens := h.spells_request.trimSpaces_eq
  have hspace : (space :: (p.argumentTokens ++ p.conditionTokens)).head?.all isSpace = true := rfl
  have hargument := h.spells_argument.trimSpaces_eq
  have hbare : ¬ p.verb.isBare = true := by simp [h.not_bare]
  rw [Clauses.ofTokens?, h.spells_once.trimSpaces_eq, tokens]
  dsimp only
  rw [if_pos hspace, ofPhrase?_name h.verb, hrest, Option.map_some, if_neg hbare, conditionTokens]
  split
  · rw [List.append_nil, Text.cutAt_of_not_sep h.not_isCondition, hargument]
    rfl
  · next hconditions =>
    have hlist := (spells_list hconditions (fun item hi => (h.fields item hi).1)
      h.accepted).trimSpaces_eq
    have hfront : ∀ t ∈ p.argumentTokens ++ [space], Clauses.isCondition t = false := by
      intro t ht
      rcases List.mem_append.mp ht with ht | ht
      · exact h.not_isCondition t ht
      · rw [List.mem_singleton.mp ht]
        rfl
    have hwhole : p.argumentTokens ++ ([space, word Vocabulary.condition, space] ++
        listTokens p.conditions) = (p.argumentTokens ++ [space]) ++
          word Vocabulary.condition :: space :: listTokens p.conditions := by
      rw [List.append_assoc]
      rfl
    have hbehind : trimSpaces (space :: listTokens p.conditions) = listTokens p.conditions := hlist
    rw [hwhole, Text.cutAt_append_sep _ hfront (by decide)]
    dsimp only [Option.map_some]
    rw [trimSpaces_append_space, hargument, hbehind]

/-! ## The checks -/

theorem validate_eq_self {s : Statement} (hpath : s.pathFaults = []) (hretarget : s.retarget = s)
    (hargument : s.argumentFaults = []) (hnames : s.hasValidNames = true)
    (hverb : s.verbFaults = []) (hsites : s.settleSites = s) : s.validate = s := by
  rw [validate, hpath, addFaults_nil, hretarget, hargument, hnames, if_pos rfl, addFaults_nil,
    hverb, addFaults_nil, hsites]

theorem isValidName_of_plainChars {w : String} (h : ∀ c ∈ w.toList, isPlainChar c = true) :
    isValidName w = true := by
  rw [isValidName, List.all_eq_true]
  intro c hc
  have hplain := h c hc
  rw [isPlainChar] at hplain
  rw [isNameChar, hplain, Bool.true_or]

theorem not_isBlankText {w : String} (hne : w ≠ "") (h : ∀ c ∈ w.toList, isPlainChar c = true) :
    Text.isBlankText w = false := by
  rw [Text.isBlankText, ← Bool.not_eq_true, List.all_eq_true]
  intro hblank
  have hlist : w.toList ≠ [] := by simpa using hne
  have hhead := List.head_mem hlist
  have hword := isWordChar_of_isPlainChar (h _ hhead)
  have hfalse := hblank _ hhead
  rw [not_isBlank_of_isWordChar hword] at hfalse
  cases hfalse

theorem not_namesRoot {s : Statement}
    (h : ∀ name ∈ s.selectedName :: s.childNames, name ≠ Vocabulary.root) :
    s.namesRoot = false := by
  obtain ⟨hname, hchildren⟩ := List.forall_mem_cons.mp h
  rw [namesRoot, Bool.or_eq_false_iff, beq_eq_false_iff_ne]
  refine ⟨hname, ?_⟩
  rw [← Bool.not_eq_true, List.contains_iff_mem]
  exact fun hmem => hchildren _ hmem rfl

theorem childNames_statement (p : Phrase) : p.statement.childNames = p.children.map Prod.fst := by
  rw [childNames, statement, List.map_map]
  rfl

theorem not_isRuleName {name : String} (h : Vocabulary.isReserved name = false) :
    Vocabulary.isRuleName name = false := by
  cases hrule : Vocabulary.isRuleName name with
  | false => rfl
  | true =>
    obtain ⟨kind, rfl⟩ := Vocabulary.exists_kind_of_isRuleName hrule
    have hreserved : Vocabulary.isReserved kind.name = true := by cases kind <;> decide
    rw [hreserved] at h
    cases h

theorem WellFormed.not_beginsAtRules (h : p.WellFormed) :
    ¬ (p.statement.verb = .write ∧ p.statement.beginsAtRules = true) := by
  rintro ⟨hverb, hbegins⟩
  obtain ⟨hrule, hroot, _⟩ := h.write hverb
  have hhierarchy : p.hierarchy = p.statement.parents ++ [p.name] := rfl
  rw [beginsAtRules] at hbegins
  split at hbegins
  · cases hbegins
  · next first hparents =>
    rw [hhierarchy, hparents, beq_iff_eq.mp hbegins] at hrule
    exact hrule (List.prefix_append _ _)
  · next first second rest hparents =>
    rw [hhierarchy, hparents] at hrule hroot
    rw [Bool.or_eq_true, Bool.and_eq_true, beq_iff_eq, beq_iff_eq, beq_iff_eq] at hbegins
    rcases hbegins with rfl | ⟨rfl, rfl⟩
    · exact hrule (List.prefix_append [_] _)
    · exact hroot (List.prefix_append [_, _] _)

theorem WellFormed.verbFaults (h : p.WellFormed) : p.statement.verbFaults = [] := by
  have hselected : p.statement.selectedName = p.name := rfl
  have hvalue : p.statement.selectedValue = p.value := rfl
  have hchildren : p.statement.children = p.children.map fun child => (child.1, child.2.getD "") :=
    rfl
  rcases h.verb with hverb | hverb | hverb
  · obtain ⟨hnone, hplain⟩ := h.read hverb
    have hvalues : p.statement.children.any (·.2 != "") = false := by
      rw [hchildren, List.any_map, List.any_eq_false]
      intro child hchild
      simp [hplain child hchild]
    rw [Statement.verbFaults, show p.statement.verb = .read from hverb]
    dsimp only
    rw [readFaults, hvalue, hnone, hvalues]
    rfl
  · obtain ⟨_, _, hnames⟩ := h.write hverb
    have hroot : p.statement.namesRoot = false := by
      refine not_namesRoot fun name hname => (hnames name ?_).2
      rw [childNames_statement] at hname
      exact hname
    rw [Statement.verbFaults, show p.statement.verb = .write from hverb]
    dsimp only
    rw [writeFaults, hroot, hselected, childNames_statement, List.filter_eq_nil_iff.mpr]
    · rfl
    · intro name hname
      simp [(hnames name hname).1]
  · obtain ⟨hnone, hnil, hreserved, hroot⟩ := h.delete hverb
    have hnamesRoot : p.statement.namesRoot = false := by
      refine not_namesRoot ?_
      rw [childNames_statement, hnil]
      exact List.forall_mem_singleton.mpr hroot
    rw [Statement.verbFaults, show p.statement.verb = .delete from hverb]
    dsimp only
    rw [deleteFaults, hnamesRoot, hselected, hreserved, not_isRuleName hreserved, hvalue, hnone,
      hchildren, hnil]
    rfl

/-- The statement of a phrase passes the checks at the end of reading. -/
theorem WellFormed.validate (h : p.WellFormed) : p.statement.validate = p.statement := by
  have hhierarchy : p.statement.hierarchy = p.hierarchy := rfl
  have hname : p.name ∈ p.hierarchy := List.mem_append_right _ (List.mem_singleton_self _)
  refine validate_eq_self ?_ ?_ ?_ ?_ h.verbFaults ?_
  · rw [pathFaults, hhierarchy, decide_eq_false (Nat.not_lt.mpr h.wildcard),
      decide_eq_false (Nat.not_lt.mpr h.ruleSubtree)]
    rfl
  · rw [retarget, if_neg h.not_beginsAtRules]
  · have hblank : Text.isBlankText p.statement.selectedName = false :=
      not_isBlankText (h.names p.name hname).ne_blank (h.names p.name hname).chars
    rw [argumentFaults, hblank]
    rfl
  · have hparents : p.statement.parents.all isValidName = true := by
      rw [List.all_eq_true]
      exact fun name hmem =>
        isValidName_of_plainChars (h.names name (List.mem_append_left _ hmem)).chars
    have hchildren : p.statement.childNames.all isValidName = true := by
      rw [childNames_statement, List.all_map, List.all_eq_true]
      exact fun child hmem => isValidName_of_plainChars (h.childNames child hmem).chars
    have hselected : isValidName p.statement.selectedName = true :=
      isValidName_of_plainChars (h.names p.name hname).chars
    rw [hasValidNames, hselected, hparents, hchildren]
    rfl
  · rw [settleSites, if_neg]
    rcases h.verb with hverb | hverb | hverb <;> simp [statement, hverb]

/-! ## The statement -/

/-- The only colon of a phrase stands in front of its children. -/
theorem count_colon (p : Phrase) : p.tokens.count colon ≤ 1 := by
  have hzero : ∀ {ts : List Token}, (∀ t ∈ ts, t ≠ colon) → ts.count colon = 0 :=
    fun h => List.count_eq_zero.mpr fun hmem => h colon hmem rfl
  have hpath : (pathTokens p.hierarchy).count colon = 0 :=
    hzero (forall_pathTokens (P := (· ≠ colon)) (by simp) (by simp))
  have hvalue : (valueTokens p.value).count colon = 0 :=
    hzero (forall_valueTokens (P := (· ≠ colon)) (by simp) (by simp) (by simp) p.value)
  have hlist : ∀ items, (listTokens items).count colon = 0 := fun items =>
    hzero (forall_listTokens (P := (· ≠ colon)) (by simp) (by simp) (by simp) (by simp) (by simp))
  have hchildren : (if p.children = [] then [] else [colon, space] ++
      listTokens p.children).count colon ≤ 1 := by
    split
    · exact Nat.zero_le 1
    · rw [List.count_append, hlist]
      decide
  have hconditions : p.conditionTokens.count colon = 0 := by
    rw [conditionTokens]
    split
    · rfl
    · rw [List.count_append, hlist]
      rfl
  rw [tokens, List.count_cons_of_ne (by simp), List.count_cons_of_ne (by simp), List.count_append,
    argumentTokens, List.count_append, List.count_append, hpath, hvalue, hconditions]
  omega

/-- The clauses of a phrase make up its statement. -/
theorem WellFormed.withClauses (h : p.WellFormed) :
    withClauses { text := p.onceText, repetitions := 1 } ⟨p.verb, p.argumentTokens,
      if p.conditions = [] then none else some (listTokens p.conditions)⟩ =
      p.statement.reread p.onceText 1 := by
  rw [Statement.withClauses]
  dsimp only
  rw [if_neg (by simp [h.not_bare]), withArgument, h.argument]
  split
  · next hnone =>
    split at hnone
    · next hnil => rw [reread, statement, hnil]; rfl
    · cases hnone
  · next ts hsome =>
    split at hsome
    · cases hsome
    · next hne =>
      obtain rfl := Option.some.inj hsome
      rw [withCondition_listTokens hne h.fields h.accepted]
      rfl

section

variable (h : p.WellFormed)
include h

theorem WellFormed.not_terminated : ¬ Terminated p.onceText := by
  have hterminated := h.spells_once.not_terminated
  rw [String.ofList_toList] at hterminated
  exact hterminated

theorem WellFormed.meaningful : Meaningful p.onceText p.tokens := by
  have hmeaningful := h.spells_once.meaningful p.count_colon
  rw [String.ofList_toList] at hmeaningful
  exact hmeaningful

theorem WellFormed.trim_onceText : Text.trim p.onceText = p.onceText := by
  rw [Text.trim, h.spells_once.trimChars_eq, String.ofList_toList]

theorem WellFormed.body_onceText : body p.onceText = p.onceText := by
  rw [body_of_not_terminated h.not_terminated, h.trim_onceText]

/-- Without a number of repetitions the text of a phrase is read as its statement. -/
theorem WellFormed.parse_onceText : parse p.onceText = p.statement.reread p.onceText 1 := by
  rw [show parse p.onceText = ofText (body p.onceText) from rfl, h.body_onceText,
    h.meaningful.ofText,
    interpret_of_clauses (takeRepetitions_of_not_any h.spells_once.not_repetition) h.clauses,
    h.withClauses, reread_validate, h.validate]

/-- The text of a phrase can be given a number of repetitions. -/
theorem WellFormed.repeatable : Repeatable p.onceText := by
  have hverb : (parse p.onceText).verb = p.verb := by
    rw [h.parse_onceText]
    rfl
  constructor
  · rw [isError, hverb]
    rcases h.verb with hv | hv | hv <;> rw [hv] <;> rfl
  · rw [hverb]
    rcases h.verb with hv | hv | hv <;> rw [hv] <;> decide
  · rw [asksRepetition, Statement.tokens, h.body_onceText, h.meaningful.tokenize]
    exact h.spells_once.not_repetition
  · exact h.not_terminated
  · rw [Text.trimStart, h.spells_once.dropWhile_eq, String.ofList_toList]
    exact h.meaningful.latin

/-- The text of a phrase is read as the statement that has its parts. -/
theorem parse_text : parse p.text = p.statement := by
  cases hrepetitions : p.repetitions with
  | none =>
    have htext : p.text = p.onceText := by rw [text, hrepetitions]
    rw [htext, h.parse_onceText, reread, statement, htext, hrepetitions]
    rfl
  | some n =>
    have htext : p.text = repeated p.onceText n := by rw [text, hrepetitions, repeated]
    have hbody : body p.text = p.text := by
      have hne : Text.trim p.onceText ≠ "" := by
        rw [h.trim_onceText]
        exact h.meaningful.ne_blank
      rw [htext, body_repeated hne, Text.trimStart, h.spells_once.dropWhile_eq,
        String.ofList_toList]
    obtain ⟨hpos, hmax⟩ := h.repetitions n hrepetitions
    have hparse := h.repeatable.parse_repeated hpos hmax
    rw [← htext, hbody, h.parse_onceText] at hparse
    rw [hparse, reread, reread, statement, hrepetitions]
    rfl

end

/-- A write whose quoted texts look like the joints of a statement. -/
def quotedPhrase : Phrase :=
  { verb := .write
    parents := ["Root", "p-1"]
    name := "12"
    value := some "a: b = c"
    children := [("x", some "12:30:00, where"), ("where-", none)]
    conditions := [("f_1", some "Times 2"), ("f_1", some ""), ("g", none)]
    repetitions := some 30 }

theorem parse_text_quoted : quotedPhrase.WellFormed ∧
    parse ("write Root.p-1.12 = \"a: b = c\": x = \"12:30:00, where\", where- " ++
      "where f_1 = \"Times 2\", f_1 = \"\", g Times 30") = quotedPhrase.statement ∧
    quotedPhrase.statement.filter = ⟨[("f_1", ["Times 2", ""]), ("g", [])]⟩ := by
  have h : quotedPhrase.WellFormed := by
    constructor <;> decide +kernel
  have htext : quotedPhrase.text =
      "write Root.p-1.12 = \"a: b = c\": x = \"12:30:00, where\", where- " ++
        "where f_1 = \"Times 2\", f_1 = \"\", g Times 30" := by
    decide +kernel
  have hparse := parse_text h
  rw [htext] at hparse
  exact ⟨h, hparse, by decide +kernel⟩

/-- A deletion names no children. -/
theorem parse_text_delete_children :
    PlainWord "a" ∧ PlainWord "b" ∧
      text { verb := .delete, name := "a", children := [("b", none)] } = "delete a: b" ∧
      parse "delete a: b" ≠
        statement { verb := .delete, name := "a", children := [("b", none)] } ∧
      (parse "delete a: b").verb = .error := by
  refine ⟨by decide, by decide, by decide, ?_, by decide +kernel⟩
  decide +kernel

end Phrase

end TreeDatabase
