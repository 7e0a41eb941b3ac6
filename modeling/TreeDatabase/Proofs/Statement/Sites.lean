import TreeDatabase.Proofs.Statement.Rendering
import TreeDatabase.Proofs.Statement.Repetition
import TreeDatabase.Proofs.Statement.Soundness

/-!
# Keyword sites

The keyword sites of a statement are keywords of its text, in the order in which they stand there,
and no two of them fill one field.
-/

namespace TreeDatabase

open Token

/-! ## Sites and keywords -/

/-- The keyword of a site, with its number. -/
def KeywordSite.asKeyword (site : KeywordSite) : Generator × Nat := (site.generator, site.ordinal)

/-- Sites are made of keywords among tokens, in their order. -/
def SitesAmong (sites : List KeywordSite) (ts : List Token) : Prop :=
  (sites.map KeywordSite.asKeyword).Sublist (keywords ts)

namespace SitesAmong

variable {sites later : List KeywordSite} {ts us : List Token}

theorem nil (ts : List Token) : SitesAmong [] ts := List.nil_sublist _

theorem mono (h : SitesAmong sites ts) (hsub : ts.Sublist us) : SitesAmong sites us :=
  List.Sublist.trans h (hsub.filterMap _)

theorem append (h : SitesAmong sites ts) (h' : SitesAmong later us) :
    SitesAmong (sites ++ later) (ts ++ us) := by
  rw [SitesAmong, List.map_append, keywords, List.filterMap_append]
  exact List.Sublist.append h h'

/-- Sites in front of a separator, and those behind it if there is one. -/
theorem cutAt (sep : Token → Bool) (ts : List Token) (h : SitesAmong sites (Text.cutAt sep ts).1)
    (h' : SitesAmong later ((Text.cutAt sep ts).2.getD [])) : SitesAmong (sites ++ later) ts :=
  (h.append h').mono (Text.sublist_cutAt sep ts)

/-- Sites that are made of keywords of a text have its numbers, in their order. -/
theorem increasing {text : String} (hts : tokenize text = .ok ts) (h : SitesAmong sites ts) :
    (sites.map (·.ordinal)).Pairwise (· < ·) := by
  have hordinals : (sites.map (·.ordinal)).Sublist (List.range (keywords ts).length) := by
    rw [← ordinals_of_tokenize hts]
    simpa [Function.comp_def, KeywordSite.asKeyword] using List.Sublist.map Prod.snd h
  exact List.pairwise_lt_range.sublist hordinals

end SitesAmong

theorem KeywordSite.among_of_ofTokens? (field : Field) (ts : List Token) :
    SitesAmong (KeywordSite.ofTokens? field ts).toList ts := by
  have hkeyword : ∀ {site : KeywordSite} {raw : String} {rest : List Token},
      trimSpaces ts = .keyword site.generator raw site.ordinal :: rest → SitesAmong [site] ts := by
    intro site raw rest htrim
    have hsub : (trimSpaces ts).Sublist ts := Text.sublist_trimBy isSpace ts
    rw [htrim] at hsub
    exact SitesAmong.mono (List.singleton_sublist.mpr List.mem_cons_self) hsub
  unfold KeywordSite.ofTokens?
  split
  · next htrim =>
    split
    · exact hkeyword htrim
    · exact .nil ts
  · next htrim =>
    split
    · exact hkeyword htrim
    · exact .nil ts
  · exact .nil ts

theorem KeywordSite.among_of_bind (field : Field) (value : Option (List Token)) :
    SitesAmong (value.bind (KeywordSite.ofTokens? field)).toList (value.getD []) := by
  cases value with
  | none => exact .nil _
  | some ts => exact among_of_ofTokens? field ts

namespace Children

theorem among_ofItems (items : List (List Token)) (index : Nat) (plain : List String) :
    SitesAmong (ofItems index plain items).sites items.flatten := by
  induction items generalizing index plain with
  | nil => exact .nil _
  | cons item items ih =>
    rw [ofItems, List.flatten_cons]
    exact SitesAmong.append (SitesAmong.cutAt (· == equals) item
      (KeywordSite.among_of_ofTokens? _ _) (KeywordSite.among_of_bind _ _)) (ih _ _)

theorem sublist_items (parts : List (List Token)) :
    ((parts.map trimSpaces).filter (· ≠ [])).flatten.Sublist parts.flatten := by
  induction parts with
  | nil => exact List.Sublist.refl _
  | cons part parts ih =>
    have hpart : (trimSpaces part).Sublist part := Text.sublist_trimBy isSpace part
    rw [List.map_cons, List.filter_cons]
    split
    · exact hpart.append ih
    · exact ih.trans (List.sublist_append_right _ _)

theorem among_ofTokens (ts : List Token) : SitesAmong (ofTokens ts).sites ts :=
  (among_ofItems _ 0 []).mono ((sublist_items _).trans (Text.sublist_pieces (· == comma) ts))

theorem among_of_map (rest : Option (List Token)) :
    SitesAmong ((rest.map ofTokens).getD {}).sites (rest.getD []) := by
  cases rest with
  | none => exact .nil _
  | some ts => exact among_ofTokens ts

end Children

theorem Argument.among_ofTokens (ts : List Token) : SitesAmong (ofTokens ts).sites ts :=
  SitesAmong.cutAt (· == colon) ts
    (SitesAmong.cutAt (· == equals) (Text.cutAt (· == colon) ts).1
      ((KeywordSite.among_of_ofTokens? _ _).mono (Text.sublist_afterLast (· == dot) _))
      (KeywordSite.among_of_bind _ _))
    (Children.among_of_map _)

/-! ## Different fields -/

theorem KeywordSite.fields_of_ofTokens? (field : Field) (ts : List Token) :
    ((KeywordSite.ofTokens? field ts).toList.map (·.field)).Sublist [field] := by
  cases hsite : KeywordSite.ofTokens? field ts with
  | none => exact List.nil_sublist _
  | some site => simp [KeywordSite.field_of_ofTokens? hsite]

theorem KeywordSite.fields_of_bind (field : Field) (value : Option (List Token)) :
    ((value.bind (KeywordSite.ofTokens? field)).toList.map (·.field)).Sublist [field] := by
  cases value with
  | none => exact List.nil_sublist _
  | some ts => exact fields_of_ofTokens? field ts

namespace Children

variable {items : List (List Token)} {index : Nat} {plain : List String}

/-- Sites of children are apart from those of fields that are none of theirs. -/
theorem nodup_append_ofItems (h : ((ofItems index plain items).sites.map (·.field)).Nodup)
    {fields front : List Field} (hfields : fields.Sublist front) (hfront : front.Nodup)
    (hnone : ∀ i, Field.childName (index + i) ∉ front ∧ Field.childValue (index + i) ∉ front) :
    (fields ++ (ofItems index plain items).sites.map (·.field)).Nodup := by
  refine List.nodup_append.mpr ⟨hfront.sublist hfields, h, ?_⟩
  intro field hfield other hother
  have hmem := hfields.subset hfield
  obtain ⟨site, hsite, rfl⟩ := List.mem_map.mp hother
  obtain ⟨i, _, hname | hvalue⟩ := field_ofItems items _ _ site hsite
  · rintro rfl
    exact (hnone i).1 (hname ▸ hmem)
  · rintro rfl
    exact (hnone i).2 (hvalue ▸ hmem)

/-- The sites of a child fill its name and its value, which no site of another child does. -/
theorem nodup_fields_ofItems (items : List (List Token)) (index : Nat) (plain : List String) :
    ((ofItems index plain items).sites.map (·.field)).Nodup := by
  induction items generalizing index plain with
  | nil => exact List.nodup_nil
  | cons item items ih =>
    rw [ofItems]
    simp only [List.map_append]
    have hchild := (KeywordSite.fields_of_ofTokens? (.childName index)
      (Text.cutAt (· == equals) item).1).append
      (KeywordSite.fields_of_bind (.childValue index) (Text.cutAt (· == equals) item).2)
    refine nodup_append_ofItems (ih _ _) hchild (by simp) fun i => ?_
    simp
    omega

end Children

theorem Argument.nodup_fields_ofTokens (ts : List Token) :
    ((ofTokens ts).sites.map (·.field)).Nodup := by
  have hselected : (((ofTokens ts).nameSite.toList ++ (ofTokens ts).valueSite.toList).map
      (·.field)).Sublist [.selectedName, .selectedValue] := by
    rw [List.map_append]
    exact (KeywordSite.fields_of_ofTokens? .selectedName _).append
      (KeywordSite.fields_of_bind .selectedValue _)
  rw [Argument.sites, List.map_append]
  rcases Argument.children_ofTokens ts with hnone | ⟨items, hitems⟩
  · rw [hnone, List.map_nil, List.append_nil]
    exact hselected.nodup (by simp)
  · rw [hitems]
    exact Children.nodup_append_ofItems (Children.nodup_fields_ofItems _ _ _) hselected (by simp)
      (by simp)

/-! ## Statements -/

namespace Statement

theorem Divides.among {text : String} {n : Nat} {clauses : Clauses} (h : Divides text n clauses) :
    ∃ ts, tokenize (String.ofList (unescape text.toList)) = .ok ts ∧
      SitesAmong (Argument.ofTokens clauses.argument).sites ts := by
  obtain ⟨ts, rest, hts, htake, hclauses⟩ := h
  exact ⟨ts, hts, (Argument.among_ofTokens _).mono
    ((clauses_of_ofTokens? hclauses).2.trans (sublist_of_takeRepetitions htake))⟩

/-- The keyword sites of a statement in its text. -/
structure SitesIn (s : Statement) (text : String) : Prop where
  /-- They are keywords of the text, each for itself, in the order of the text. -/
  inOrder : ∃ ts, tokens text = .ok ts ∧
    (s.sites.map KeywordSite.asKeyword).Sublist (keywords ts)
  /-- No two of them fill one field. -/
  apart : (s.sites.map (·.field)).Nodup
  exist : s.SitesExist

theorem sitesIn_parse {text : String} (hok : (parse text).verb ≠ .error)
    (hsites : (parse text).sites ≠ []) : (parse text).SitesIn text := by
  have hreading := reading_parse hok
  generalize parse text = s at hok hsites hreading
  cases hreading with
  | comment => exact absurd rfl hsites
  | bare _ _ => exact absurd rfl hsites
  | @data n clauses divides _ _ _ filter =>
    obtain ⟨verb, heq⟩ := validate_eq hok
    have hexist : (ofParts (body text) n clauses filter).validate.SitesExist :=
      sitesExist_ofParts.validate hok
    generalize (ofParts (body text) n clauses filter).validate = s at heq hsites hexist ⊢
    subst heq
    dsimp only at hsites
    have hkept : ¬ (verb = .rename ∨ verb = .enforce) := fun hverb => hsites (if_pos hverb)
    obtain ⟨ts, hts, hamong⟩ := divides.among
    refine ⟨⟨ts, hts, ?_⟩, ?_, hexist⟩
    · dsimp only
      rw [if_neg hkept]
      exact hamong
    · dsimp only
      rw [if_neg hkept]
      exact Argument.nodup_fields_ofTokens _

end Statement

end TreeDatabase
