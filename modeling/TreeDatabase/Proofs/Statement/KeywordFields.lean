import TreeDatabase.Proofs.Statement.Sites
import TreeDatabase.Proofs.Text.Cuts

/-!
# Keywords and the fields that they fill

The fields of an argument are runs of tokens, which the first colon, the first equals sign, the last
dot and the commas set apart. A field has a keyword site just when its run is a keyword in its
canonical spelling, or a keyword with one parameter, and the text of the field is then what the site
tells.
-/

namespace TreeDatabase

open Token

/-! ## Shapes of keyword sites -/

namespace KeywordSite

variable {site : KeywordSite} {ts : List Token}

/-- The tokens that a keyword site is read from: a keyword in its canonical spelling, or a keyword,
blanks and one word or keyword of letters, digits and underscores. -/
inductive ReadFrom : KeywordSite → List Token → Prop
  | plain {g : Generator} {field : Field} {n : Nat} {ts : List Token}
      (h : trimSpaces ts = [keyword g g.name n]) : ReadFrom ⟨g, none, field, n⟩ ts
  | parameter {g : Generator} {raw : String} {field : Field} {n : Nat} {t : Token}
      {ts : List Token} (h : trimSpaces ts = [keyword g raw n, space, t])
      (identifier : t.isIdentifier = true) : ReadFrom ⟨g, some t.text, field, n⟩ ts

/-- The text of a field that a keyword fills: the keyword itself, or the keyword in any letter case,
one blank and the parameter. -/
inductive Describes : KeywordSite → String → Prop
  | plain {g : Generator} {field : Field} {n : Nat} : Describes ⟨g, none, field, n⟩ g.name
  | parameter {g : Generator} {raw p : String} {field : Field} {n : Nat}
      (variant : Text.equalsIgnoringCase g.name raw = true) :
      Describes ⟨g, some p, field, n⟩ (raw ++ " " ++ p)

theorem ofTokens?_eq_some_iff {field : Field} :
    KeywordSite.ofTokens? field ts = some site ↔ site.field = field ∧ site.ReadFrom ts := by
  constructor
  · intro h
    refine ⟨field_of_ofTokens? h, ?_⟩
    unfold KeywordSite.ofTokens? at h
    split at h
    · next htrim =>
      split at h
      · next hraw =>
        cases h
        exact .plain (hraw ▸ htrim)
      · cases h
    · next htrim =>
      split at h
      · next hidentifier =>
        cases h
        exact .parameter htrim hidentifier
      · cases h
    · cases h
  · rintro ⟨rfl, hread⟩
    cases hread with
    | plain h => simp [KeywordSite.ofTokens?, h]
    | parameter h identifier => simp [KeywordSite.ofTokens?, h, identifier]

end KeywordSite

/-! ## Texts of runs -/

theorem Token.joinText_trimSpaces (ts : List Token) : joinText (trimSpaces ts) = joinText ts := by
  obtain ⟨before, after, hts, hbefore, hafter⟩ := Text.trimBy_append_dropped isSpace ts
  have hchars : Text.trimChars (ts.flatMap fun t => t.text.toList) =
      Text.trimChars ((trimSpaces ts).flatMap fun t => t.text.toList) := by
    conv_lhs => rw [hts, List.flatMap_append, List.flatMap_append]
    rw [Text.trimChars, Text.trimBy_append_of_all _ (isBlank_of_isSpace hafter),
      Text.trimBy_prepend_of_all _ (isBlank_of_isSpace hbefore)]
    rfl
  rw [joinText, joinText, hchars]

/-- A run between tokens without blanks has their texts as they are. -/
theorem Token.joinText_eq {ts : List Token} {first last : List Char} {cs : List Char}
    (h : ts.flatMap (fun t => t.text.toList) = cs) (hfirst : first <+: cs) (hlast : last <:+ cs)
    (hne : first ≠ []) (hne' : last ≠ []) (hf : ∀ c ∈ first, Text.isBlank c = false)
    (hl : ∀ c ∈ last, Text.isBlank c = false) : joinText ts = String.ofList cs := by
  rw [joinText, h]
  refine congrArg String.ofList (Text.trimBy_eq_self ?_ ?_)
  · obtain ⟨behind, rfl⟩ := hfirst
    intro c hc
    rw [List.head?_append_of_ne_nil _ hne] at hc
    exact hf c (List.mem_of_head? hc)
  · obtain ⟨before, rfl⟩ := hlast
    intro c hc
    rw [List.getLast?_append_of_ne_nil _ hne'] at hc
    exact hl c (List.mem_of_getLast? hc)

namespace Token.Lexical

variable {t : Token}

theorem solid_of_isIdentifier (h : t.Lexical) (hidentifier : t.isIdentifier = true) :
    t.text.toList ≠ [] ∧ ∀ c ∈ t.text.toList, Text.isBlank c = false := by
  cases t with
  | word w => exact ⟨h.1, fun c hc => not_isBlank_of_isWordChar (h.2 c hc)⟩
  | keyword g raw n => exact ⟨h.2.1, fun c hc => not_isBlank_of_isWordChar (h.2.2 c hc)⟩
  | _ => cases hidentifier

end Token.Lexical

theorem Generator.equalsIgnoringCase_of_ofWord? {g : Generator} {w : String}
    (h : Generator.ofWord? w = some g) : Text.equalsIgnoringCase g.name w = true := by
  rw [Generator.ofWord?] at h
  have hfound := List.find?_some h
  exact hfound

/-- The text of the tokens that a keyword site is read from. -/
theorem KeywordSite.ReadFrom.describes {site : KeywordSite} {ts : List Token}
    (h : site.ReadFrom ts) (hlex : ∀ t ∈ ts, t.Lexical) : site.Describes (joinText ts) := by
  have hlex' : ∀ t ∈ trimSpaces ts, t.Lexical := fun t ht => hlex t (Text.mem_of_mem_trimBy ht)
  rw [← joinText_trimSpaces]
  cases h with
  | @plain g _ n _ htrim =>
    rw [htrim] at hlex' ⊢
    obtain ⟨hg, hne, hraw⟩ := hlex' _ List.mem_cons_self
    have hsolid := fun c hc => not_isBlank_of_isWordChar (hraw c hc)
    have hchars : [keyword g g.name n].flatMap (fun t => t.text.toList) = g.name.toList :=
      List.flatMap_singleton _ _
    have hjoin : joinText [keyword g g.name n] = g.name := by
      rw [joinText_eq hchars List.prefix_rfl List.suffix_rfl hne hne hsolid hsolid]
      exact String.ofList_toList
    rw [hjoin]
    exact .plain
  | @parameter g raw _ n t _ htrim identifier =>
    rw [htrim] at hlex' ⊢
    obtain ⟨hg, hne, hraw⟩ := hlex' (keyword g raw n) List.mem_cons_self
    obtain ⟨hne', hparameter⟩ := (hlex' t (by simp)).solid_of_isIdentifier identifier
    have hchars : [keyword g raw n, space, t].flatMap (fun t => t.text.toList) =
        (raw ++ " " ++ t.text).toList := by
      simp [Token.text]
    have hfirst : raw.toList <+: (raw ++ " " ++ t.text).toList := by simp
    have hlast : t.text.toList <:+ (raw ++ " " ++ t.text).toList := ⟨(raw ++ " ").toList, by simp⟩
    have hjoin : joinText [keyword g raw n, space, t] = raw ++ " " ++ t.text := by
      rw [joinText_eq hchars hfirst hlast hne hne'
        (fun c hc => not_isBlank_of_isWordChar (hraw c hc)) hparameter]
      exact String.ofList_toList
    rw [hjoin]
    exact .parameter (Generator.equalsIgnoringCase_of_ofWord? hg)

/-! ## Fields of an argument -/

namespace Argument

/-- The items of the children of an argument: what stands between the commas behind the first colon,
without the blanks around it. An item of blanks does not count. -/
def Lists (ts : List Token) (items : List (List Token)) : Prop :=
  ∃ head list parts, Text.Cut colon ts head (some list) ∧ Text.Parts comma list parts ∧
    items = (parts.map trimSpaces).filter (· ≠ [])

/-- The tokens in the fields of an argument. -/
inductive Holds (ts : List Token) : Field → List Token → Prop
  | selectedName {head path run : List Token} {children value : Option (List Token)}
      (whole : Text.Cut colon ts head children) (selected : Text.Cut equals head path value)
      (last : Text.Tail dot path run) : Holds ts .selectedName run
  | selectedValue {head path run : List Token} {children : Option (List Token)}
      (whole : Text.Cut colon ts head children) (selected : Text.Cut equals head path (some run)) :
      Holds ts .selectedValue run
  | childName {items : List (List Token)} {item run : List Token} {value : Option (List Token)}
      {i : Nat} (children : Lists ts items) (child : items[i]? = some item)
      (parts : Text.Cut equals item run value) : Holds ts (.childName i) run
  | childValue {items : List (List Token)} {item name run : List Token} {i : Nat}
      (children : Lists ts items) (child : items[i]? = some item)
      (parts : Text.Cut equals item name (some run)) : Holds ts (.childValue i) run

def items (ts : List Token) : List (List Token) :=
  match (Text.cutAt (· == colon) ts).2 with
  | none => []
  | some list => ((Text.pieces (· == comma) list).map trimSpaces).filter (· ≠ [])

theorem children_ofTokens_eq (ts : List Token) :
    (ofTokens ts).children = Children.ofItems 0 [] (items ts) := by
  rw [ofTokens, items]
  dsimp only
  cases (Text.cutAt (· == colon) ts).2 <;> rfl

/-- The tokens in a field as reading takes them. -/
def run? (ts : List Token) : Field → Option (List Token)
  | .selectedName => some (Text.afterLast (· == dot)
      (Text.cutAt (· == equals) (Text.cutAt (· == colon) ts).1).1)
  | .selectedValue => (Text.cutAt (· == equals) (Text.cutAt (· == colon) ts).1).2
  | .childName i => (items ts)[i]?.map fun item => (Text.cutAt (· == equals) item).1
  | .childValue i => (items ts)[i]?.bind fun item => (Text.cutAt (· == equals) item).2

theorem getElem?_items_iff {ts item : List Token} {i : Nat} :
    (items ts)[i]? = some item ↔ ∃ its, Lists ts its ∧ its[i]? = some item := by
  constructor
  · intro h
    rw [items] at h
    split at h
    · simp at h
    · next list hlist =>
      exact ⟨_, ⟨_, list, _, Text.cut_iff.mpr (Prod.ext rfl hlist), Text.parts_iff.mpr rfl, rfl⟩, h⟩
  · rintro ⟨its, ⟨head, list, parts, hcut, hparts, rfl⟩, h⟩
    rw [items, Text.cut_iff.mp hcut]
    dsimp only
    rw [Text.parts_iff.mp hparts]
    exact h

theorem holds_iff {ts run : List Token} {field : Field} :
    Holds ts field run ↔ run? ts field = some run := by
  constructor
  · intro h
    cases h with
    | selectedName whole selected last =>
      simp only [run?, Text.cut_iff.mp whole, Text.cut_iff.mp selected, Text.tail_iff.mp last]
    | selectedValue whole selected =>
      simp only [run?, Text.cut_iff.mp whole, Text.cut_iff.mp selected]
    | childName children child parts =>
      simp only [run?, getElem?_items_iff.mpr ⟨_, children, child⟩, Option.map_some,
        Text.cut_iff.mp parts]
    | childValue children child parts =>
      simp only [run?, getElem?_items_iff.mpr ⟨_, children, child⟩, Option.bind_some,
        Text.cut_iff.mp parts]
  · intro h
    cases field with
    | selectedName =>
      exact .selectedName (Text.cut_iff.mpr rfl) (Text.cut_iff.mpr rfl)
        (Text.tail_iff.mpr (Option.some.inj h))
    | selectedValue =>
      exact .selectedValue (Text.cut_iff.mpr rfl) (Text.cut_iff.mpr (Prod.ext rfl h))
    | childName i =>
      obtain ⟨item, hitem, rfl⟩ := Option.map_eq_some_iff.mp h
      obtain ⟨its, hits, hchild⟩ := getElem?_items_iff.mp hitem
      exact .childName hits hchild (Text.cut_iff.mpr rfl)
    | childValue i =>
      obtain ⟨item, hitem, hvalue⟩ := Option.bind_eq_some_iff.mp h
      obtain ⟨its, hits, hchild⟩ := getElem?_items_iff.mp hitem
      exact .childValue hits hchild (Text.cut_iff.mpr (Prod.ext rfl hvalue))

theorem Lists.subset {ts item : List Token} {items : List (List Token)} (h : Lists ts items)
    (hitem : item ∈ items) : item ⊆ ts := by
  obtain ⟨_, list, parts, hcut, hparts, rfl⟩ := h
  obtain ⟨part, hpart, rfl⟩ := List.mem_map.mp (List.mem_filter.mp hitem).1
  rw [← Text.parts_iff.mp hparts] at hpart
  exact fun t ht => hcut.back_subset (Text.mem_of_mem_pieces hpart (Text.mem_of_mem_trimBy ht))

theorem Holds.subset {ts run : List Token} {field : Field} (h : Holds ts field run) : run ⊆ ts := by
  cases h with
  | selectedName whole selected last =>
    exact List.Subset.trans last.subset
      (List.Subset.trans selected.front_subset whole.front_subset)
  | selectedValue whole selected =>
    exact List.Subset.trans selected.back_subset whole.front_subset
  | childName children child parts =>
    exact List.Subset.trans parts.front_subset (children.subset (List.mem_of_getElem? child))
  | childValue children child parts =>
    exact List.Subset.trans parts.back_subset (children.subset (List.mem_of_getElem? child))

end Argument

/-! ## Sites and texts of the fields -/

namespace Children

theorem entries_ofItems (items : List (List Token)) (index : Nat) (plain : List String) :
    (ofItems index plain items).entries = items.map fun item =>
      (joinText (Text.cutAt (· == equals) item).1,
        ((Text.cutAt (· == equals) item).2.map joinText).getD "") := by
  induction items generalizing index plain with
  | nil => rfl
  | cons item items ih => rw [ofItems, ih, List.map_cons]

/-- The sites of children are those of the name and of the value of each of them. -/
theorem mem_sites_ofItems {items : List (List Token)} {index : Nat} {plain : List String}
    {site : KeywordSite} : site ∈ (ofItems index plain items).sites ↔ ∃ i item,
      items[i]? = some item ∧
        (KeywordSite.ofTokens? (.childName (index + i)) (Text.cutAt (· == equals) item).1 =
            some site ∨
          ∃ run, (Text.cutAt (· == equals) item).2 = some run ∧
            KeywordSite.ofTokens? (.childValue (index + i)) run = some site) := by
  induction items generalizing index plain with
  | nil => simp [ofItems]
  | cons item items ih =>
    have hlater : ∀ i, index + 1 + i = index + (i + 1) := by omega
    rw [ofItems]
    simp only [List.mem_append, Option.mem_toList, Option.bind_eq_some_iff, ih, hlater]
    constructor
    · rintro (hfirst | ⟨i, item, hitem, h⟩)
      · exact ⟨0, item, rfl, hfirst⟩
      · exact ⟨i + 1, item, hitem, h⟩
    · rintro ⟨i, other, hother, h⟩
      cases i with
      | zero =>
        cases hother
        exact .inl h
      | succ i => exact .inr ⟨i, other, hother, h⟩

end Children

namespace Argument

variable {ts run : List Token} {field : Field}

/-- The keyword sites of an argument are the keywords that fill its fields. -/
theorem mem_sites_iff {site : KeywordSite} :
    site ∈ (ofTokens ts).sites ↔ ∃ run, Holds ts site.field run ∧ site.ReadFrom run := by
  simp only [sites, children_ofTokens_eq, List.mem_append, Option.mem_toList,
    Children.mem_sites_ofItems, Nat.zero_add, holds_iff]
  simp only [ofTokens, Option.bind_eq_some_iff, KeywordSite.ofTokens?_eq_some_iff]
  obtain ⟨g, parameter, field, n⟩ := site
  cases field with
  | childValue i =>
    simp only [reduceCtorEq, false_and, and_false, exists_const, false_or, or_false, run?,
      Field.childValue.injEq, Option.bind_eq_some_iff]
    constructor
    · rintro ⟨_, item, hitem, run, hrun, rfl, hread⟩
      exact ⟨run, ⟨item, hitem, hrun⟩, hread⟩
    · rintro ⟨run, ⟨item, hitem, hrun⟩, hread⟩
      exact ⟨i, item, hitem, run, hrun, rfl, hread⟩
  | _ => simp [run?]

end Argument

namespace Statement

variable {text : String} {n : Nat} {clauses : Clauses} {filter : Filter}

/-- Where a field of the argument holds tokens, its text is theirs. -/
theorem field?_ofParts {field : Field} {run : List Token}
    (h : Argument.Holds clauses.argument field run) :
    (ofParts text n clauses filter).field? field = some (joinText run) := by
  have hrun := Argument.holds_iff.mp h
  cases field with
  | selectedName =>
    have hname : ∀ ts : List Token, ((Text.pieces (· == dot) ts).map joinText).getLast?.getD "" =
        joinText (Text.afterLast (· == dot) ts) := by
      intro ts
      rw [List.getLast?_map, Text.afterLast,
        List.getLast?_eq_some_getLast (Text.pieces_ne_nil _ ts)]
      rfl
    cases hrun
    exact congrArg some (hname _)
  | selectedValue =>
    rw [Argument.run?] at hrun
    simp only [field?, ofParts, Argument.ofTokens, hrun, Option.map_some]
  | childName i =>
    obtain ⟨item, hitem, rfl⟩ := Option.map_eq_some_iff.mp hrun
    simp only [field?, ofParts, Argument.children_ofTokens_eq, Children.entries_ofItems,
      List.getElem?_map, hitem, Option.map_some]
  | childValue i =>
    obtain ⟨item, hitem, hvalue⟩ := Option.bind_eq_some_iff.mp hrun
    simp only [field?, ofParts, Argument.children_ofTokens_eq, Children.entries_ofItems,
      List.getElem?_map, hitem, hvalue, Option.map_some, Option.getD_some]

/-! ## Statements -/

/-- Two statements that differ in nothing but the verb, the filter and the faults. -/
def SameFields (s t : Statement) : Prop :=
  ∃ verb filter faults, t = { s with verb, filter, faults }

namespace SameFields

variable {s t u : Statement}

theorem refl (s : Statement) : s.SameFields s := ⟨s.verb, s.filter, s.faults, rfl⟩

theorem trans (h : s.SameFields t) (h' : t.SameFields u) : s.SameFields u := by
  obtain ⟨_, _, _, rfl⟩ := h
  obtain ⟨verb, filter, faults, rfl⟩ := h'
  exact ⟨verb, filter, faults, rfl⟩

theorem sites (h : s.SameFields t) : t.sites = s.sites := by
  obtain ⟨_, _, _, rfl⟩ := h
  rfl

theorem field? (h : s.SameFields t) (field : Field) : t.field? field = s.field? field := by
  obtain ⟨_, _, _, rfl⟩ := h
  cases field <;> rfl

theorem addFault (s : Statement) (f : Fault) : s.SameFields (s.addFault f) :=
  ⟨_, _, _, rfl⟩

theorem addFaults (s : Statement) (fs : List Fault) : s.SameFields (s.addFaults fs) := by
  induction fs generalizing s with
  | nil => exact refl s
  | cons f fs ih => exact (addFault s f).trans (ih _)

theorem withCondition (s : Statement) (ts : List Token) : s.SameFields (s.withCondition ts) :=
  withCondition_induction ts (refl s) (fun _ _ ht => ht.trans ⟨_, _, _, rfl⟩)
    fun t f ht => ht.trans (addFault t f)

theorem retarget (s : Statement) : s.SameFields s.retarget := by
  rw [Statement.retarget]
  split
  · exact ⟨_, _, _, rfl⟩
  · exact refl s

/-- The checks at the end of reading leave the fields, and the sites unless they take them all. -/
theorem validate (s : Statement) : s.validate.sites = [] ∨ s.SameFields s.validate := by
  have hchecked := ((addFaults s s.pathFaults).trans (retarget _)).trans
    (addFaults _ (s.addFaults s.pathFaults).retarget.argumentFaults)
  rw [Statement.validate]
  split
  · rw [Statement.settleSites]
    split
    · exact .inl rfl
    · exact .inr (hchecked.trans (addFaults _ _))
  · exact .inr (hchecked.trans (addFault _ _))

end SameFields

theorem withClauses_fields (text : String) (n : Nat) (clauses : Clauses) :
    (withClauses { text, repetitions := n } clauses).sites = [] ∨
      (ofParts text n clauses {}).SameFields
        (withClauses { text, repetitions := n } clauses) := by
  rw [withClauses]
  dsimp only
  split
  · split
    · exact .inl rfl
    · exact .inl rfl
  · have hargument : (ofParts text n clauses {}).SameFields
        (withArgument { text, repetitions := n, verb := clauses.verb }
          (Argument.ofTokens clauses.argument)) := by
      rw [withArgument]
      exact SameFields.addFaults (ofParts text n clauses {}) _
    split
    · exact .inr hargument
    · exact .inr (hargument.trans (.withCondition _ _))

/-- The sites and fields of every statement that has sites are those of an argument of its text. -/
theorem exists_ofParts_of_sites {text : String} (h : (parse text).sites ≠ []) : ∃ n clauses,
    Divides (body text) n clauses ∧ (ofParts (body text) n clauses {}).SameFields (parse text) := by
  rcases parse_stages text with ⟨_, heq⟩ | ⟨_, _, heq⟩ | ⟨n, clauses, hdivides, heq⟩
  · exact absurd (congrArg Statement.sites heq) h
  · exact absurd (congrArg Statement.sites heq) h
  · rw [heq] at h ⊢
    have hvalidate := (SameFields.validate _).resolve_left h
    rw [hvalidate.sites] at h
    exact ⟨n, clauses, hdivides, ((withClauses_fields _ n clauses).resolve_left h).trans hvalidate⟩

/-- A verb that stands for itself admits no argument. -/
theorem argument_of_isBare {text : String} {n : Nat} {clauses : Clauses}
    (hbare : clauses.verb.isBare = true)
    (h : (withClauses { text, repetitions := n } clauses).verb ≠ .error) :
    clauses.argument = [] := by
  rw [withClauses] at h
  dsimp only at h
  rw [if_pos hbare] at h
  split at h
  · assumption
  · exact absurd rfl h

/-- The checks at the end of reading change nothing but definitions of rules and renamings. -/
theorem validate_of_kept {s : Statement} (h : s.validate.verb ≠ .error)
    (hrename : s.validate.verb ≠ .rename) (henforce : s.validate.verb ≠ .enforce) :
    s.validate = s := by
  obtain ⟨heq, _⟩ := validate_of_ne_error h
  rw [heq, settleSites_verb] at hrename henforce
  rw [heq, settleSites, if_neg (by simp [hrename, henforce])]
  rcases s.retarget_cases with ⟨_, _, hr⟩ | ⟨_, hr⟩
  · exact absurd (by rw [hr]) henforce
  · exact hr

/-- Without an argument there is a blank name, and nothing else. -/
theorem holds_nil {field : Field} {run : List Token} (h : Argument.Holds [] field run) :
    field = .selectedName ∧ run = [] := by
  have hrun := Argument.holds_iff.mp h
  cases field with
  | selectedName => exact ⟨rfl, (Option.some.inj hrun).symm⟩
  | _ => cases hrun

/-- The keyword sites of a statement as a description of its fields. -/
structure SitesDescribe (s : Statement) (text : String) : Prop where
  increasing : (s.sites.map (·.ordinal)).Pairwise (· < ·)
  apart : (s.sites.map (·.field)).Nodup
  /-- The text of a field that has a site is the keyword, or a keyword with its parameter. -/
  described : ∀ site ∈ s.sites, ∃ written, s.field? site.field = some written ∧
    site.Describes written
  /-- The text of a statement without faults is a remark, and the statement has nothing but its
  text; or its fields are those of the argument in its text. Each of these that is a keyword has its
  site, unless the verb leaves keywords as they are. -/
  complete : s.verb ∉ [.error, .rename, .enforce] →
    (IsRemark (body text) ∧ s = { text := body text }) ∨
    ∃ n clauses, Divides (body text) n clauses ∧ clauses.verb = s.verb ∧
      ∀ field run, Argument.Holds clauses.argument field run →
        s.field? field = some (joinText run) ∧
          ∀ site : KeywordSite, site.field = field → site.ReadFrom run → site ∈ s.sites

/-- A statement that is read without a fault and is no remark, and whose verb does not leave
keywords as they are, has the fields and the sites of the argument in its text. -/
theorem complete_parse {text : String} (hverb : (parse text).verb ∉ [.error, .rename, .enforce]) :
    (IsRemark (body text) ∧ parse text = { text := body text }) ∨
    ∃ n clauses, Divides (body text) n clauses ∧ clauses.verb = (parse text).verb ∧
      ∀ field run, Argument.Holds clauses.argument field run →
        (parse text).field? field = some (joinText run) ∧
          ∀ site : KeywordSite, site.field = field → site.ReadFrom run →
            site ∈ (parse text).sites := by
  simp only [List.mem_cons, List.not_mem_nil, or_false, not_or] at hverb
  obtain ⟨hok, hrename, henforce⟩ := hverb
  rcases parse_stages text with hremark | ⟨_, _, heq⟩ | ⟨n, clauses, hdivides, heq⟩
  · exact .inl hremark
  · exact absurd (congrArg Statement.verb heq) hok
  · refine .inr ⟨n, clauses, hdivides, ?_⟩
    rw [heq] at hok hrename henforce ⊢
    have hclauses := verb_ne_error_of_validate hok
    rw [validate_of_kept hok hrename henforce]
    rcases withClauses_of_ne_error hclauses with ⟨hbare, heq⟩ | ⟨_, _, _, filter, heq⟩
    · have hargument := argument_of_isBare hbare hclauses
      rw [heq]
      refine ⟨rfl, fun field run hrun => ?_⟩
      rw [hargument] at hrun
      obtain ⟨rfl, rfl⟩ := holds_nil hrun
      refine ⟨rfl, fun site _ hread => ?_⟩
      cases hread with
      | plain h => cases h
      | parameter h _ => cases h
    · rw [heq]
      refine ⟨rfl, fun field run hrun => ⟨field?_ofParts hrun, ?_⟩⟩
      rintro site rfl hread
      exact Argument.mem_sites_iff.mpr ⟨run, hrun, hread⟩

theorem sitesDescribe_parse (text : String) : (parse text).SitesDescribe text := by
  by_cases hsites : (parse text).sites = []
  · exact ⟨by simp [hsites], by simp [hsites], by simp [hsites], complete_parse⟩
  · obtain ⟨n, clauses, hdivides, hfields⟩ := exists_ofParts_of_sites hsites
    have hequal : (parse text).sites = (Argument.ofTokens clauses.argument).sites := hfields.sites
    obtain ⟨ts, hts, hamong⟩ := hdivides.among
    refine ⟨?_, ?_, ?_, complete_parse⟩
    · rw [hequal]
      exact hamong.increasing hts
    · rw [hequal]
      exact Argument.nodup_fields_ofTokens _
    · intro site hsite
      rw [hequal] at hsite
      obtain ⟨run, hholds, hread⟩ := Argument.mem_sites_iff.mp hsite
      refine ⟨joinText run, ?_, hread.describes fun t ht => ?_⟩
      · rw [hfields.field?]
        exact field?_ofParts hholds
      · exact hdivides.lexical t (hholds.subset ht)

/-- A keyword in another spelling needs a parameter to be a site, and an item of blanks is no
child. -/
theorem sitesDescribe_parse_spelled :
    let text := "write p.NEWID  7 = lastname: Text, , b = Date x"
    (parse text).SitesDescribe text ∧
      (parse text).sites = [⟨.newId, some "7", .selectedName, 0⟩, ⟨.text, none, .childName 0, 2⟩,
        ⟨.date, some "x", .childValue 1, 3⟩] ∧
      [.selectedName, .selectedValue, .childName 0, .childName 1, .childValue 1].map
        (parse text).field? = ["NEWID 7", "lastname", "Text", "b", "Date x"].map some ∧
      ¬ IsRemark (body text) := by
  intro text
  refine ⟨sitesDescribe_parse text, by decide +kernel, by decide +kernel, ?_⟩
  rw [IsRemark]
  decide +kernel

end Statement

end TreeDatabase
