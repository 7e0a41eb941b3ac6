import Mathlib.Tactic.Common
import TreeDatabase.Store.Update

/-!
# Names and paths

A path is the names from the root with dots between them. A node name holds no dot, so a path
determines the names that make it up, and the path of a child determines that of its parent.
-/

namespace TreeDatabase

namespace Text

theorem forall_mem_intercalate {α : Type} {P : α → Prop} {joint : List α} {parts : List (List α)}
    (hjoint : ∀ a ∈ joint, P a) (hparts : ∀ part ∈ parts, ∀ a ∈ part, P a) :
    ∀ a ∈ joint.intercalate parts, P a := by
  induction parts with
  | nil => rintro a ⟨⟩
  | cons part parts ih =>
    obtain ⟨hpart, hparts⟩ := List.forall_mem_cons.mp hparts
    cases parts with
    | nil =>
      rw [List.intercalate_singleton]
      exact hpart
    | cons next parts =>
      rw [List.intercalate_cons_cons]
      intro a ha
      rcases List.mem_append.mp ha with ha | ha
      · exact (List.mem_append.mp ha).elim (hpart a) (hjoint a)
      · exact ih hparts a ha

/-- What stands after the last separator does not depend on what stands before it. -/
theorem afterLast_append_sep {α : Type} {sep : α → Bool} {s : α} (as : List α) {bs : List α}
    (hs : sep s = true) (hb : ∀ b ∈ bs, sep b = false) : afterLast sep (as ++ s :: bs) = bs := by
  rw [afterLast, pieces_append hs, pieces_of_not_sep hb]
  simp

theorem afterLast_of_not_sep {α : Type} {sep : α → Bool} {as : List α}
    (h : ∀ a ∈ as, sep a = false) : afterLast sep as = as := by
  rw [afterLast, pieces_of_not_sep h]
  simp

end Text

namespace Store

theorem isNodeName_iff {name : String} :
    isNodeName name = true ↔ name ≠ "" ∧ '.' ∉ name.toList ∧ ':' ∉ name.toList := by
  simp [isNodeName, and_assoc]

theorem ne_blank_of_isNodeName {name : String} (h : isNodeName name = true) : name ≠ "" :=
  (isNodeName_iff.mp h).1

theorem not_dot_of_isNodeName {name : String} (h : isNodeName name = true) :
    ∀ c ∈ name.toList, (c == '.') = false := by
  intro c hc
  exact beq_eq_false_iff_ne.mpr fun he => (isNodeName_iff.mp h).2.1 (he ▸ hc)

end Store

open Store

theorem length_pos_of_isNodeName {name : String} (h : isNodeName name = true) :
    0 < name.toList.length := by
  rw [List.length_pos_iff]
  intro hn
  exact ne_blank_of_isNodeName h (String.toList_inj.mp (by simpa using hn))

@[simp] theorem childPath_blank (name : String) : childPath "" name = name := rfl

theorem toList_childPath {above : String} (h : above ≠ "") (name : String) :
    (childPath above name).toList = above.toList ++ '.' :: name.toList := by
  simp [childPath, h, String.toList_append]

theorem childPath_ne_blank {name : String} (h : isNodeName name = true) (above : String) :
    childPath above name ≠ "" := by
  by_cases ha : above = ""
  · simpa [ha] using ne_blank_of_isNodeName h
  · intro he
    have := congrArg String.toList he
    simp [toList_childPath ha] at this

/-- A node stands deeper than its parent, measured by the lengths of their paths. -/
theorem length_lt_childPath {name : String} (h : isNodeName name = true) (above : String) :
    above.toList.length < (childPath above name).toList.length := by
  have hn := length_pos_of_isNodeName h
  by_cases ha : above = ""
  · simpa [ha] using hn
  · simp [toList_childPath ha]

namespace Path

theorem last_childPath {name : String} (h : isNodeName name = true) (above : String) :
    last (childPath above name) = name := by
  have hd := not_dot_of_isNodeName h
  by_cases ha : above = ""
  · rw [ha, childPath_blank, last, Text.afterLast_of_not_sep hd, String.ofList_toList]
  · rw [last, toList_childPath ha, Text.afterLast_append_sep _ (by simp) hd, String.ofList_toList]

end Path

/-- The path of a child determines the path of its parent and its name. -/
theorem childPath_inj {p q n m : String} (hn : isNodeName n = true) (hm : isNodeName m = true) :
    childPath p n = childPath q m ↔ p = q ∧ n = m := by
  constructor
  · intro h
    have hnm : n = m := by rw [← Path.last_childPath hn p, h, Path.last_childPath hm]
    subst hnm
    refine ⟨?_, rfl⟩
    have hl := congrArg String.toList h
    by_cases hp : p = "" <;> by_cases hq : q = ""
    · rw [hp, hq]
    · have := congrArg List.length hl
      simp [hp, toList_childPath hq] at this
      omega
    · have := congrArg List.length hl
      simp [hq, toList_childPath hp] at this
      omega
    · rw [toList_childPath hp, toList_childPath hq] at hl
      exact String.toList_inj.mp (List.append_cancel_right hl)
  · rintro ⟨rfl, rfl⟩
    rfl

namespace Path

/-- The path that names make from the root down. -/
def ofNames (names : List String) : String := Text.joinWith "." names

@[simp] theorem ofNames_nil : ofNames [] = "" := String.intercalate_nil (s := ".")

theorem toList_ofNames (names : List String) :
    (ofNames names).toList = ['.'].intercalate (names.map String.toList) :=
  String.toList_intercalate

theorem ofNames_ne_blank {names : List String} (hne : names ≠ [])
    (h : ∀ n ∈ names, isNodeName n = true) : ofNames names ≠ "" := by
  cases names with
  | nil => exact absurd rfl hne
  | cons n ns =>
    intro he
    have hn := length_pos_of_isNodeName (h n (by simp))
    have hl := congrArg (List.length ∘ String.toList) he
    cases ns with
    | nil => simp [toList_ofNames] at hl; simp [hl] at hn
    | cons m ms => simp [toList_ofNames, List.intercalate_cons_cons] at hl

theorem ofNames_append_singleton {names : List String} (h : ∀ n ∈ names, isNodeName n = true)
    (name : String) : ofNames (names ++ [name]) = childPath (ofNames names) name := by
  by_cases hne : names = []
  · subst hne
    exact String.intercalate_singleton (s := ".")
  · rw [childPath, if_neg (ofNames_ne_blank hne h), ofNames, Text.joinWith,
      String.intercalate_append_of_ne_nil hne (by simp), String.intercalate_singleton]
    rfl

/-- Names without dots are the segments of the path that they make. -/
theorem segments_ofNames_of_not_dot {names : List String} (hne : names ≠ [])
    (h : ∀ n ∈ names, '.' ∉ n.toList) : segments (ofNames names) = names := by
  have hdot : ∀ p ∈ names.map String.toList, '.' ∉ p := by
    intro p hp
    obtain ⟨n, hn, rfl⟩ := List.mem_map.mp hp
    exact h n hn
  rw [segments, Text.splitOn, toList_ofNames, Text.pieces_intercalate (by simpa using hne) hdot]
  simp [Function.comp_def]

theorem segments_ofNames {names : List String} (hne : names ≠ [])
    (h : ∀ n ∈ names, isNodeName n = true) : segments (ofNames names) = names :=
  segments_ofNames_of_not_dot hne fun n hn => (isNodeName_iff.mp (h n hn)).2.1

theorem segments_ne_nil (path : String) : segments path ≠ [] := by
  simpa [segments, Text.splitOn] using Text.pieces_ne_nil _ _

theorem ofNames_segments (path : String) : ofNames (segments path) = path := by
  apply String.toList_inj.mp
  rw [toList_ofNames, segments, Text.splitOn, List.map_map]
  simpa [Function.comp_def] using Text.intercalate_pieces '.' path.toList

theorem segments_inj {path other : String} : segments path = segments other ↔ path = other :=
  ⟨fun h => by rw [← ofNames_segments path, h, ofNames_segments], congrArg segments⟩

theorem not_dot_of_mem_segments {path name : String} (h : name ∈ segments path) :
    '.' ∉ name.toList := by
  obtain ⟨p, hp, rfl⟩ := List.mem_map.mp h
  intro hc
  have hsep : ('.' == '.') = false := Text.not_sep_of_mem_pieces hp (by simpa using hc)
  simp at hsep

/-- A path is made of dots and of the characters of its names. -/
theorem mem_ofNames {names : List String} :
    ∀ c ∈ (ofNames names).toList, c = '.' ∨ ∃ name ∈ names, c ∈ name.toList := by
  rw [toList_ofNames]
  refine Text.forall_mem_intercalate (by simp) fun part hpart c hc => .inr ?_
  obtain ⟨name, hname, rfl⟩ := List.mem_map.mp hpart
  exact ⟨name, hname, hc⟩

theorem first_ofNames {name : String} {names : List String} (hn : isNodeName name = true) :
    first (ofNames (name :: names)) = name := by
  have hd := not_dot_of_isNodeName hn
  rw [first, toList_ofNames]
  cases names with
  | nil => simp [Text.cutAt_of_not_sep hd]
  | cons m ms =>
    rw [List.map_cons, List.map_cons, List.intercalate_cons_cons, List.append_assoc,
      List.singleton_append, Text.cutAt_append_sep _ hd (by simp)]
    simp

theorem ofNames_inj {names others : List String} (h : ∀ n ∈ names, isNodeName n = true)
    (ho : ∀ n ∈ others, isNodeName n = true) (he : ofNames names = ofNames others) :
    names = others := by
  by_cases hn : names = [] <;> by_cases hm : others = []
  · rw [hn, hm]
  · exact absurd (by rw [← he, hn, ofNames_nil]) (ofNames_ne_blank hm ho)
  · exact absurd (by rw [he, hm, ofNames_nil]) (ofNames_ne_blank hn h)
  · rw [← segments_ofNames hn h, he, segments_ofNames hm ho]

end Path

end TreeDatabase
