import TreeDatabase.Operation.Target
import TreeDatabase.Proofs.Statement.Repetition
import TreeDatabase.Proofs.Text.Cuts

/-!
# Conditions in any order

A filter gathers the items of a condition by their fields. What it accepts is told by the items
alone: which fields they name, and which values they give for each. So the items of a condition can
stand in any order, and every node passes the same filters.
-/

namespace TreeDatabase

open Token

/-! ## What a filter has gathered -/

namespace Filter

/-- An item of a condition: a field, and perhaps a value that is accepted in it. -/
abbrev Item := String × Option String

/-- The filter of items that are added one after the other. -/
def ofItems (items : List Item) : Filter := items.foldl (fun f item => f.add item.1 item.2) {}

def names (f : Filter) : List String := f.fields.map Prod.fst

/-- Whether a value stands in the list of a field. -/
def Lists (f : Filter) (name value : String) : Prop :=
  ∃ accepted, (name, accepted) ∈ f.fields ∧ value ∈ accepted

variable {f g : Filter} {items items' : List Item} {name value : String}

theorem map_fst_addTo (field : String) (values : List String)
    (fields : List (String × List String)) : (addTo field values fields).map Prod.fst =
      if field ∈ fields.map Prod.fst then fields.map Prod.fst
      else fields.map Prod.fst ++ [field] := by
  induction fields with
  | nil => rfl
  | cons entry fields ih =>
    rw [addTo]
    by_cases hentry : entry.1 = field
    · rw [if_pos hentry, if_pos (List.mem_map.mpr ⟨entry, List.mem_cons_self, hentry⟩)]
      rfl
    · rw [if_neg hentry, List.map_cons, List.map_cons, ih]
      by_cases hmem : field ∈ fields.map Prod.fst
      · rw [if_pos hmem, if_pos (List.mem_cons_of_mem _ hmem)]
      · rw [if_neg hmem, if_neg (by simp [hmem, Ne.symm hentry]), List.cons_append]

theorem names_add (f : Filter) (field : String) (v : Option String) :
    (f.add field v).names = if field ∈ f.names then f.names else f.names ++ [field] :=
  map_fst_addTo field v.toList f.fields

theorem mem_names_add {field : String} {v : Option String} :
    name ∈ (f.add field v).names ↔ name ∈ f.names ∨ name = field := by
  rw [names_add]
  split
  · next hfield =>
    refine ⟨.inl, fun h => h.elim id ?_⟩
    rintro rfl
    exact hfield
  · rw [List.mem_append, List.mem_singleton]

/-- A value is listed for a field when it was before, or when it comes with the item. -/
theorem lists_add_iff {field : String} {v : Option String} :
    (f.add field v).Lists name value ↔ f.Lists name value ∨ name = field ∧ v = some value := by
  obtain ⟨fields⟩ := f
  simp only [Lists, add]
  induction fields with
  | nil => simp [addTo]
  | cons entry fields ih =>
    obtain ⟨other, accepted⟩ := entry
    rw [addTo]
    by_cases hother : other = field
    · subst hother
      simp only [if_true, List.mem_cons, Prod.mk.injEq]
      constructor
      · rintro ⟨listed, ⟨rfl, rfl⟩ | hlisted, hvalue⟩
        · rcases List.mem_append.mp hvalue with hvalue | hvalue
          · exact .inl ⟨accepted, .inl ⟨rfl, rfl⟩, hvalue⟩
          · exact .inr ⟨rfl, Option.mem_toList.mp hvalue⟩
        · exact .inl ⟨listed, .inr hlisted, hvalue⟩
      · rintro (⟨listed, ⟨rfl, rfl⟩ | hlisted, hvalue⟩ | ⟨rfl, rfl⟩)
        · exact ⟨_, .inl ⟨rfl, rfl⟩, List.mem_append_left _ hvalue⟩
        · exact ⟨listed, .inr hlisted, hvalue⟩
        · exact ⟨_, .inl ⟨rfl, rfl⟩, List.mem_append_right _ List.mem_cons_self⟩
    · simp only [if_neg hother, List.mem_cons, or_and_right, exists_or, ih, or_assoc]

theorem nodup_names_add (h : f.names.Nodup) (field : String) (v : Option String) :
    (f.add field v).names.Nodup := by
  rw [names_add]
  split
  · exact h
  · next hfield =>
    rw [← List.concat_eq_append]
    exact h.concat hfield

/-- A field that is present is accepted with every value, unless values are listed for it. -/
theorem accepts_iff (h : f.names.Nodup) : f.accepts name value = true ↔
    name ∈ f.names ∧ ((∀ other, ¬ f.Lists name other) ∨ f.Lists name value) := by
  simp only [accepts, List.any_eq_true, Bool.and_eq_true, Bool.or_eq_true, beq_iff_eq,
    List.isEmpty_iff, List.contains_iff_mem]
  constructor
  · rintro ⟨⟨_, accepted⟩, hmem, rfl, hvalue⟩
    refine ⟨List.mem_map_of_mem hmem, hvalue.imp ?_ fun hvalue => ⟨accepted, hmem, hvalue⟩⟩
    -- A value that is listed for the field is listed in this entry, as no other has its name.
    rintro rfl other ⟨listed, hlisted, hother⟩
    have heq := List.inj_on_of_nodup_map h hlisted hmem rfl
    obtain rfl := (Prod.mk.inj heq).2
    cases hother
  · rintro ⟨hname, hvalue⟩
    rcases hvalue with hnone | ⟨accepted, hmem, hvalue⟩
    · obtain ⟨⟨_, accepted⟩, hmem, rfl⟩ := List.mem_map.mp hname
      refine ⟨_, hmem, rfl, .inl (List.eq_nil_iff_forall_not_mem.mpr fun other hother => ?_)⟩
      exact hnone other ⟨accepted, hmem, hother⟩
    · exact ⟨_, hmem, rfl, .inr hvalue⟩

/-! ## The filter of items -/

theorem ofItems_append_singleton (items : List Item) (item : Item) :
    ofItems (items ++ [item]) = (ofItems items).add item.1 item.2 := by
  rw [ofItems, List.foldl_append]
  rfl

theorem nodup_names_ofItems (items : List Item) : (ofItems items).names.Nodup := by
  induction items using List.reverseRecOn with
  | nil => exact List.nodup_nil
  | append_singleton items item ih =>
    rw [ofItems_append_singleton]
    exact nodup_names_add ih _ _

theorem mem_names_ofItems : name ∈ (ofItems items).names ↔ ∃ item ∈ items, item.1 = name := by
  induction items using List.reverseRecOn with
  | nil => simp [ofItems, names]
  | append_singleton items item ih =>
    rw [ofItems_append_singleton, mem_names_add, ih, eq_comm (a := name)]
    simp only [List.mem_append, List.mem_singleton, or_and_right, exists_or, exists_eq_left]

theorem lists_ofItems_iff : (ofItems items).Lists name value ↔ (name, some value) ∈ items := by
  induction items using List.reverseRecOn with
  | nil => simp [ofItems, Lists]
  | append_singleton items item ih =>
    obtain ⟨field, v⟩ := item
    rw [ofItems_append_singleton, lists_add_iff, ih, List.mem_append, List.mem_singleton,
      Prod.mk.injEq, eq_comm (a := v)]

/-- What items tell of a filter, in whatever order they were added to it. -/
structure Gathers (f : Filter) (items : List Item) : Prop where
  distinct : (f.fields.map Prod.fst).Nodup
  isEmpty_iff : f.isEmpty = true ↔ items = []
  /-- A node is accepted when an item names its field, and either no item for this field has a
  value or one has the value of the node. -/
  accepts_iff : ∀ name value, f.accepts name value = true ↔
    (∃ item ∈ items, item.1 = name) ∧
      ((∀ item ∈ items, item.1 = name → item.2 = none) ∨ (name, some value) ∈ items)

theorem gathers_ofItems (items : List Item) : (ofItems items).Gathers items := by
  refine ⟨nodup_names_ofItems items, ?_, fun name value => ?_⟩
  · rw [isEmpty, List.isEmpty_iff, ← List.map_eq_nil_iff (f := Prod.fst),
      List.eq_nil_iff_forall_not_mem, List.eq_nil_iff_forall_not_mem]
    constructor
    · exact fun h item hitem => h item.1 (mem_names_ofItems.mpr ⟨item, hitem, rfl⟩)
    · intro h name hname
      obtain ⟨item, hitem, _⟩ := mem_names_ofItems.mp hname
      exact h item hitem
  · rw [accepts_iff (nodup_names_ofItems items), mem_names_ofItems, lists_ofItems_iff]
    simp only [lists_ofItems_iff]
    have hvalues : (∀ other, (name, some other) ∉ items) ↔
        ∀ item ∈ items, item.1 = name → item.2 = none := by
      constructor
      · rintro h ⟨_, v⟩ hitem rfl
        exact Option.eq_none_iff_forall_ne_some.mpr fun other hv => h other (hv ▸ hitem)
      · intro h other hitem
        cases h _ hitem rfl
    rw [hvalues]

/-- Two filters that no node tells apart. -/
structure Alike (f g : Filter) : Prop where
  accepts : f.accepts = g.accepts
  passes : ∀ (store : Store) (id : NodeId), store.passes f id = store.passes g id

/-- The order of the items does not matter, nor how often one of them comes. -/
theorem Gathers.alike (hf : f.Gathers items) (hg : g.Gathers items')
    (hsame : ∀ item, item ∈ items ↔ item ∈ items') : f.Alike g := by
  have haccepts : f.accepts = g.accepts := by
    funext name value
    rw [Bool.eq_iff_iff, hf.accepts_iff, hg.accepts_iff]
    simp only [hsame]
  have hempty : f.isEmpty = g.isEmpty := by
    rw [Bool.eq_iff_iff, hf.isEmpty_iff, hg.isEmpty_iff, List.eq_nil_iff_forall_not_mem,
      List.eq_nil_iff_forall_not_mem]
    simp only [hsame]
  refine ⟨haccepts, fun store id => ?_⟩
  rw [Store.passes, Store.passes, haccepts, hempty]

theorem alike_ofItems (h : items.Perm items') : (ofItems items).Alike (ofItems items') :=
  (gathers_ofItems items).alike (gathers_ofItems items') fun _ => h.mem_iff

end Filter

/-! ## The items of a condition -/

namespace Token

/-- A keyword without the number that it has in its statement, and every other token as it is. -/
def unnumbered : Token → Token
  | keyword g raw _ => keyword g raw 0
  | t => t

@[simp] theorem text_unnumbered (t : Token) : t.unnumbered.text = t.text := by
  cases t <;> rfl

@[simp] theorem isSpace_unnumbered (t : Token) : t.unnumbered.isSpace = t.isSpace := by
  cases t <;> rfl

theorem beq_equals_unnumbered (t : Token) : (t.unnumbered == equals) = (t == equals) := by
  cases t <;> rfl

theorem trimSpaces_map_unnumbered (ts : List Token) :
    trimSpaces (ts.map unnumbered) = (trimSpaces ts).map unnumbered := by
  rw [trimSpaces, Text.trimBy_map]
  simp only [isSpace_unnumbered]
  rfl

theorem joinText_map_unnumbered (ts : List Token) :
    joinText (ts.map unnumbered) = joinText ts := by
  simp only [joinText, List.flatMap_map, text_unnumbered]

end Token

namespace Condition

theorem isFieldToken_unnumbered (t : Token) : isFieldToken t.unnumbered = isFieldToken t := by
  cases t <;> rfl

theorem isValueToken_unnumbered (t : Token) : isValueToken t.unnumbered = isValueToken t := by
  cases t <;> rfl

/-- What an item says does not depend on the keywords in front of it. -/
theorem readItem?_map_unnumbered (item : List Token) :
    readItem? (item.map unnumbered) = readItem? item := by
  have hfields : ∀ ts : List Token,
      (ts.map unnumbered).all isFieldToken = ts.all isFieldToken := fun ts => by
    simp only [List.all_map, Function.comp_def, isFieldToken_unnumbered]
  have hvalues : ∀ ts : List Token,
      (ts.map unnumbered).all isValueToken = ts.all isValueToken := fun ts => by
    simp only [List.all_map, Function.comp_def, isValueToken_unnumbered]
  rw [readItem?, readItem?, Text.cutAt_map]
  simp only [beq_equals_unnumbered, trimSpaces_map_unnumbered, joinText_map_unnumbered, hfields,
    ne_eq, List.map_eq_nil_iff]
  cases (Text.cutAt (· == equals) item).2 with
  | none => rfl
  | some value =>
    simp only [Option.map_some, trimSpaces_map_unnumbered, joinText_map_unnumbered, hvalues,
      List.map_eq_nil_iff]

/-- The items that tokens list: what stands between the commas, without the blanks around it. -/
def Items (ts : List Token) (items : List (List Token)) : Prop :=
  ∃ parts, Text.Parts comma ts parts ∧
    items = parts.map fun part => (trimSpaces part).map unnumbered

theorem filter_foldl_addItem (items : List (List Token)) (s : Statement) :
    (items.foldl addItem s).filter =
      (items.filterMap readItem?).foldl (fun f item => f.add item.1 item.2) s.filter := by
  induction items generalizing s with
  | nil => rfl
  | cons item items ih =>
    rw [List.foldl_cons, ih, addItem]
    split
    · next hitem => rw [List.filterMap_cons_some hitem, List.foldl_cons]
    · next hitem =>
      rw [List.filterMap_cons_none hitem]
      rfl

end Condition

namespace Statement

/-- A condition adds its items to the filter, except for those that cannot be interpreted. -/
theorem filter_withCondition (s : Statement) {ts : List Token} {items : List (List Token)}
    (h : Condition.Items ts items) : (s.withCondition ts).filter =
      (items.filterMap Condition.readItem?).foldl (fun f item => f.add item.1 item.2)
        s.filter := by
  obtain ⟨parts, hparts, rfl⟩ := h
  rw [Text.parts_iff] at hparts
  have hread : (parts.map fun part => (trimSpaces part).map unnumbered).filterMap
      Condition.readItem? = (parts.map trimSpaces).filterMap Condition.readItem? := by
    simp only [List.filterMap_map, Function.comp_def, Condition.readItem?_map_unnumbered]
  rw [hread, withCondition]
  split
  · next hts =>
    obtain rfl : [[]] = parts := by rw [← hparts, hts]; rfl
    rfl
  · rw [hparts, Condition.filter_foldl_addItem]

theorem filter_addFault (s : Statement) (f : Fault) : (s.addFault f).filter = s.filter := rfl

theorem filter_addFaults (s : Statement) (fs : List Fault) :
    (s.addFaults fs).filter = s.filter := by
  induction fs generalizing s with
  | nil => rfl
  | cons f fs ih => exact (ih (s.addFault f)).trans (filter_addFault s f)

theorem filter_retarget (s : Statement) : s.retarget.filter = s.filter := by
  rw [retarget]
  split <;> rfl

theorem filter_settleSites (s : Statement) : s.settleSites.filter = s.filter := by
  rw [settleSites]
  split <;> rfl

/-- The checks at the end of reading leave the filter. -/
theorem filter_validate (s : Statement) : s.validate.filter = s.filter := by
  have hchecked : ((s.addFaults s.pathFaults).retarget.addFaults
      (s.addFaults s.pathFaults).retarget.argumentFaults).filter = s.filter := by
    rw [filter_addFaults, filter_retarget, filter_addFaults]
  rw [validate]
  split
  · rw [filter_settleSites, filter_addFaults, hchecked]
  · rw [filter_addFault, hchecked]

theorem isBare_of_condition {ts condition : List Token} {clauses : Clauses}
    (h : Clauses.ofTokens? ts = some clauses) (hcondition : clauses.condition = some condition) :
    clauses.verb.isBare = false := by
  rw [Clauses.ofTokens?] at h
  split at h
  · split at h
    · obtain ⟨verb, _, rfl⟩ := Option.map_eq_some_iff.mp h
      cases hbare : verb.isBare with
      | false => simp [hbare]
      | true => simp [hbare] at hcondition
    · cases h
  · cases h

/-- The where items of a text: the tokens between the commas of its condition. -/
def WhereItems (text : String) (items : List (List Token)) : Prop :=
  ∃ ts rest n clauses condition, Meaningful (body text) ts ∧
    Clauses.takeRepetitions ts = .ok (rest, n) ∧ Clauses.ofTokens? rest = some clauses ∧
    clauses.condition = some condition ∧ Condition.Items condition items

/-- The filter of a text is that of its where items. -/
theorem filter_parse {text : String} {items : List (List Token)} (h : WhereItems text items) :
    (parse text).filter = Filter.ofItems (items.filterMap Condition.readItem?) := by
  obtain ⟨ts, rest, n, clauses, condition, hts, htake, hclauses, hcondition, hitems⟩ := h
  have hbare := isBare_of_condition hclauses hcondition
  have hparse : parse text =
      (withClauses { text := body text, repetitions := n } clauses).validate := by
    rw [show parse text = ofText (body text) from rfl, hts.ofText,
      interpret_of_clauses htake hclauses]
  rw [hparse, filter_validate, withClauses]
  dsimp only
  rw [if_neg (by simp [hbare]), hcondition]
  dsimp only
  rw [filter_withCondition _ hitems, withArgument, filter_addFaults]
  rfl

/-- A condition can list its items in any order. -/
theorem alike_withCondition {s : Statement} (hs : s.filter = {}) {parts parts' : List (List Token)}
    (hparts : ∀ part ∈ parts, comma ∉ part) (hperm : parts.Perm parts') :
    (s.withCondition ([comma].intercalate parts)).filter.Alike
      (s.withCondition ([comma].intercalate parts')).filter := by
  by_cases hne : parts = []
  · obtain rfl : parts' = [] := by simpa [hne] using hperm
    rw [hne]
    exact ⟨rfl, fun _ _ => rfl⟩
  · have hitems : ∀ {ps : List (List Token)}, parts.Perm ps → Condition.Items
        ([comma].intercalate ps) (ps.map fun part => (trimSpaces part).map unnumbered) := by
      intro ps hps
      refine ⟨ps, ⟨?_, fun part hpart => hparts part (hps.mem_iff.mpr hpart), rfl⟩, rfl⟩
      rintro rfl
      exact hne hps.eq_nil
    rw [filter_withCondition s (hitems (.refl parts)), filter_withCondition s (hitems hperm), hs]
    exact Filter.alike_ofItems ((hperm.map _).filterMap Condition.readItem?)

/-- The filter of a statement is told by its where items, and their order does not matter. The field
names of a filter are distinct, and it accepts just the nodes for which its items say so. A
condition can list its items in any order, and two texts whose where items are the same but for
their order have filters that no node tells apart. -/
theorem filters_order_free :
    (∀ items : List Filter.Item, (Filter.ofItems items).Gathers items) ∧
    (∀ text items, WhereItems text items →
      (parse text).filter = Filter.ofItems (items.filterMap Condition.readItem?)) ∧
    (∀ (s : Statement) (parts parts' : List (List Token)), s.filter = {} →
      (∀ part ∈ parts, comma ∉ part) → parts.Perm parts' →
      (s.withCondition ([comma].intercalate parts)).filter.Alike
        (s.withCondition ([comma].intercalate parts')).filter) ∧
    ∀ text text' items items', WhereItems text items → WhereItems text' items' →
      items.Perm items' → (parse text).filter.Alike (parse text').filter := by
  refine ⟨Filter.gathers_ofItems, fun _ _ => filter_parse,
    fun _ _ _ hs => alike_withCondition hs, ?_⟩
  intro text text' items items' h h' hperm
  rw [filter_parse h, filter_parse h']
  exact Filter.alike_ofItems (hperm.filterMap Condition.readItem?)

/-- One field with and without a value, another text between the verb and the condition, and a
keyword that has another number there. -/
theorem filters_order_free_keywords :
    let text := "read a where x=1, Newid = \"p, q\", y, x Times 2"
    let text' := "write b.NEWID WHERE x , y, x=1, Newid = \"p, q\""
    let first := [word "x", equals, word "1"]
    let second := [keyword .newId "Newid" 0, space, equals, space, quoted "p, q" '"']
    let items := [first, second, [word "y"], [word "x"]]
    let items' := [[word "x"], [word "y"], first, second]
    WhereItems text items ∧ WhereItems text' items' ∧ items.Perm items' ∧
      (parse text).filter.Alike (parse text').filter ∧
      (parse text).filter = ⟨[("x", ["1"]), ("Newid", ["p, q"]), ("y", [])]⟩ ∧
      (parse text').filter = ⟨[("x", ["1"]), ("y", []), ("Newid", ["p, q"])]⟩ ∧
      (∀ part ∈ items, comma ∉ part) ∧
      (withCondition {} ([comma].intercalate items)).filter.Alike
        (withCondition {} ([comma].intercalate items')).filter := by
  intro text text' first second items items'
  have h : WhereItems text items := by
    let front := [word "read", space, word "a"]
    let condition := first ++ [comma, space] ++ second ++
      [comma, space, word "y", comma, space, word "x"]
    let rest := front ++ [space, word "where", space] ++ condition
    refine ⟨rest ++ [space, word "Times", space, word "2"], rest, 2,
      ⟨.read, [word "a"], some condition⟩, condition,
      ⟨by decide +kernel, by decide +kernel, by decide +kernel, by decide +kernel⟩,
      by decide +kernel, by decide +kernel, rfl,
      [first, space :: second, [space, word "y"], [space, word "x"]],
      Text.parts_iff.mpr (by decide +kernel), by decide +kernel⟩
  have h' : WhereItems text' items' := by
    let argument := [word "b", dot, keyword .newId "NEWID" 0]
    let renumbered := [keyword .newId "Newid" 1, space, equals, space, quoted "p, q" '"']
    let condition := [word "x", space, comma, space, word "y", comma, space] ++ first ++
      [comma, space] ++ renumbered
    let rest := [word "write", space] ++ argument ++ [space, word "WHERE", space] ++ condition
    refine ⟨rest, rest, 1, ⟨.write, argument, some condition⟩, condition,
      ⟨by decide +kernel, by decide +kernel, by decide +kernel, by decide +kernel⟩,
      by decide +kernel, by decide +kernel, rfl,
      [[word "x", space], [space, word "y"], space :: first, space :: renumbered],
      Text.parts_iff.mpr (by decide +kernel), by decide +kernel⟩
  have hperm : items.Perm items' := by decide +kernel
  have hparts : ∀ part ∈ items, comma ∉ part := by decide +kernel
  obtain ⟨-, hfilter, hcondition, htexts⟩ := filters_order_free
  exact ⟨h, h', hperm, htexts text text' items items' h h' hperm,
    (hfilter text items h).trans (by decide +kernel),
    (hfilter text' items' h').trans (by decide +kernel), hparts,
    hcondition {} items items' rfl hparts hperm⟩

end Statement

end TreeDatabase
